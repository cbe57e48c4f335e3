import ConcentratedPool.Proofs.BasinSizes

/-!
# A computed step in the basin

In the basin every operation of a step of Newton's method has a result: none of the numbers in it
comes near what 256 bits hold, and neither divisor near zero. So the coefficients, `F`, its
derivative and the step itself are computed (`AmpGamma.Basin.exists_coefficients`,
`AmpGamma.Basin.exists_residual`, `AmpGamma.Basin.exists_slope`), and the step ends at a positive
number that is off the tangent by eight millionths of a unit and a ten thousandth of the step
(`AmpGamma.Basin.exists_step`).
-/

set_option autoImplicit false
set_option relaxedAutoImplicit false

namespace ConcentratedPool

namespace AmpGamma

variable {a : AmpGamma} {d : ℚ} {x : Pair ℚ}

namespace Basin

/-- The weight, from roundings of its factors, is off by no more than its error. -/
theorem weight_near (h : a.Basin d x) (hs : a.Moderate x) {p gap r m n w : ℚ}
    (hp : |p - exactProduct d x| ≤ 8 * Decimal.ulp)
    (hgap : gap = a.exactGap d x - (p - exactProduct d x))
    (hr : |r - a.gamma.toRat / gap| ≤ Decimal.ulp) (hm : |m - a.amp.toRat * p| ≤ Decimal.ulp)
    (hn : |n - m * r| ≤ Decimal.ulp) (hw : |w - n * r| ≤ Decimal.ulp) :
    |w - a.exactWeight (exactProduct d x)| ≤
      a.weightError d x * a.exactWeight (exactProduct d x) + 5 * Decimal.ulp := by
  have hulp := Decimal.ulp_pos
  have hgamma := hs.gamma_pos
  have hgapPos := h.gap_pos hs
  have hfine : Decimal.ulp ≤ a.exactGap d x / 600000 := by
    rw [Decimal.ulp_eq]
    linarith [h.gap_ge_small hs]
  have hfineγ : Decimal.ulp * a.exactGap d x ≤ a.gamma.toRat / 900000 := by
    rw [Decimal.ulp_eq]
    linarith [h.gap_le hs, hs.gamma_ge]
  have hratio := ratio_near hulp hgamma hgapPos hfine hp hgap hr
  have hrounded := weight_rounded hulp (by linarith [hs.amp_ge]) (hs.product_pos h.pos) hgamma
    hgapPos hfine hfineγ hp hratio hm hn hw
  have hweight : a.amp.toRat * exactProduct d x * (a.gamma.toRat / a.exactGap d x) ^ 2 =
      a.exactWeight (exactProduct d x) := by
    rw [exactWeight, div_pow, mul_div_assoc]
    rfl
  have hR : a.gamma.toRat / a.exactGap d x ≤ 4 / 3 := by
    rw [div_le_iff₀ hgapPos]
    linarith [h.gap_ge]
  have hRSq : (a.gamma.toRat / a.exactGap d x) ^ 2 ≤ (4 / 3) ^ 2 :=
    pow_le_pow_left₀ (by positivity) hR 2
  have hlast : Decimal.ulp * (1 + 1001 / 1000 * (a.gamma.toRat / a.exactGap d x) +
      1001 / 1000 * (a.gamma.toRat / a.exactGap d x) ^ 2) ≤ Decimal.ulp * 5 :=
    mul_le_mul_of_nonneg_left (by linarith) hulp.le
  rw [hweight] at hrounded
  rw [weightError]
  linarith

/-! ### What a step computes -/

section Computed

variable {e : SignedDecimal} {y : Pair SignedDecimal}
variable (h : a.Basin d x) (hs : a.Moderate x)
variable (he : e.toRat = d) (hx : y.map SignedDecimal.toRat = x)

include h hs he in
theorem abs_size_le : |e.toRat| ≤ 10 ^ 9 := by
  rw [he, abs_of_pos h.pos]
  linarith [h.size_le hs]

include hs hx in
theorem abs_balance_le : |y.base.toRat| ≤ 10 ^ 8 ∧ |y.quote.toRat| ≤ 10 ^ 8 := by
  subst hx
  have hbase : 1 ≤ y.base.toRat := hs.base_ge
  have hquote : 1 ≤ y.quote.toRat := hs.quote_ge
  have hsum : y.base.toRat + y.quote.toRat ≤ 10 ^ 8 := hs.sum_le
  constructor
  · rw [abs_of_pos (by linarith)]
    linarith
  · rw [abs_of_pos (by linarith)]
    linarith

include hs in
theorem abs_gamma_le : |a.curve.gamma.toRat| ≤ 1 := by
  have hsame : a.curve.gamma.toRat = a.gamma.toRat := SignedDecimal.toRat_toSigned _
  rw [hsame, abs_of_pos hs.gamma_pos]
  linarith [hs.gamma_le]

include h hs

theorem abs_product_le {p : ℚ} (hp : |p - exactProduct d x| ≤ 8 * Decimal.ulp) : |p| ≤ 2 := by
  have hk := hs.product_pos h.pos
  have hkOne := h.product_le_bound hs
  rw [Decimal.ulp_eq] at hp
  obtain ⟨hlow, hhigh⟩ := abs_le.mp hp
  rw [abs_le]
  constructor
  · linarith
  · linarith

/-- The computed gap is not near zero. -/
theorem gap_far {gap p : ℚ} (hp : |p - exactProduct d x| ≤ 8 * Decimal.ulp)
    (hgap : gap = a.gamma.toRat + 1 - p) : 1 ≤ 2 * 10 ^ 7 * |gap| := by
  have hgapGe := h.gap_ge_small hs
  have hbound := le_abs_self gap
  unfold exactGap at hgapGe
  rw [Decimal.ulp_eq] at hp
  linarith [(abs_le.mp hp).2]

theorem abs_computed_weight_le {w : ℚ} (hw : |w - a.exactWeight (exactProduct d x)| ≤
    a.weightError d x * a.exactWeight (exactProduct d x) + 5 * Decimal.ulp) : |w| ≤ 10 ^ 7 := by
  have hweight := h.weight_le hs
  have hpos := h.weight_pos hs
  have hrelative := mul_le_mul_of_nonneg_right (h.weightError_le hs) hpos.le
  obtain ⟨hlow, hhigh⟩ := abs_le.mp hw
  rw [Decimal.ulp_eq] at hlow hhigh
  rw [abs_le]
  constructor
  · linarith
  · linarith

include he hx

/-- `K₀` is computed. -/
theorem exists_product : ∃ area quadruple square product : SignedDecimal,
    (y.base * y.quote : Except Fault SignedDecimal) = .ok area ∧
    (area * SignedDecimal.four : Except Fault SignedDecimal) = .ok quadruple ∧
    (e * e : Except Fault SignedDecimal) = .ok square ∧
    (quadruple / square : Except Fault SignedDecimal) = .ok product ∧
    |product.toRat - exactProduct d x| ≤ 8 * Decimal.ulp := by
  obtain ⟨hbase, hquote⟩ := abs_balance_le hs hx
  have hsize := h.abs_size_le hs he
  obtain ⟨area, harea, hareaNear, hareaLe⟩ :=
    SignedDecimal.exists_mul hbase hquote (by norm_num)
  obtain ⟨quadruple, hquadruple, hquadrupleNear, hquadrupleLe⟩ :=
    SignedDecimal.exists_mul (b := SignedDecimal.four) (B := 4) hareaLe
      (by rw [SignedDecimal.toRat_four]; norm_num) (by norm_num)
  obtain ⟨square, hsquare, hsquareNear, -⟩ := SignedDecimal.exists_mul hsize hsize (by norm_num)
  rw [he, ← pow_two] at hsquareNear
  have hlarge := h.size_ge hs
  have hsquareGe : 1 ≤ 1 * |square.toRat| := by
    rw [Decimal.ulp_eq] at hsquareNear
    rw [one_mul]
    refine le_trans ?_ (le_abs_self _)
    nlinarith [(abs_le.mp hsquareNear).1]
  obtain ⟨product, hproduct, hproductNear, -⟩ :=
    SignedDecimal.exists_div hquadrupleLe hsquareGe (by norm_num)
  refine ⟨area, quadruple, square, product, harea, hquadruple, hsquare, hproduct, ?_⟩
  have hulp := Decimal.ulp_pos
  have hfour : |quadruple.toRat - 4 * (y.base.toRat * y.quote.toRat)| ≤ 5 * Decimal.ulp := by
    rw [SignedDecimal.toRat_four] at hquadrupleNear
    obtain ⟨hareaLow, hareaHigh⟩ := abs_le.mp hareaNear
    obtain ⟨hquadrupleLow, hquadrupleHigh⟩ := abs_le.mp hquadrupleNear
    rw [abs_le]
    constructor
    · linarith
    · linarith
  subst hx
  exact product_near hulp Decimal.ulp_eq.le (by linarith) h.product_mul_sq
    (hs.product_pos h.pos).le (by linarith [h.product_le_bound hs]) hfour hsquareNear hproductNear

/-- The coefficients are computed, the weight up to its error. -/
theorem exists_coefficients : ∃ c, a.curve.coefficients e y = .ok c ∧
    |c.product.toRat - exactProduct d x| ≤ 8 * Decimal.ulp ∧
    c.gap.toRat = a.gamma.toRat + 1 - c.product.toRat ∧
    |c.weight.toRat - a.exactWeight (exactProduct d x)| ≤
      a.weightError d x * a.exactWeight (exactProduct d x) + 5 * Decimal.ulp := by
  obtain ⟨area, quadruple, square, product, harea, hquadruple, hsquare, hproduct, hnear⟩ :=
    h.exists_product hs he hx
  have hgamma : a.curve.gamma.toRat = a.gamma.toRat := SignedDecimal.toRat_toSigned _
  have hamp : a.curve.amplification.toRat = a.amp.toRat := SignedDecimal.toRat_toSigned _
  have hgammaLe := abs_gamma_le hs
  have hproductLe := h.abs_product_le hs hnear
  have hone : |SignedDecimal.one.toRat| ≤ 1 := by rw [SignedDecimal.toRat_one, abs_one]
  obtain ⟨top, htop, htopEq, htopLe⟩ := SignedDecimal.exists_add hgammaLe hone (by norm_num)
  obtain ⟨gap, hgap, hgapEq, -⟩ := SignedDecimal.exists_sub htopLe hproductLe (by norm_num)
  rw [htopEq, hgamma, SignedDecimal.toRat_one] at hgapEq
  have hgapNear : gap.toRat = a.exactGap d x - (product.toRat - exactProduct d x) := by
    rw [hgapEq, exactGap]
    ring
  obtain ⟨ratio, hratio, hratioNear, hratioLe⟩ :=
    SignedDecimal.exists_div hgammaLe (h.gap_far hs hnear hgapEq) (by norm_num)
  obtain ⟨scaled, hscaled, hscaledNear, hscaledLe⟩ := SignedDecimal.exists_mul
    (a := a.curve.amplification) (A := 400000)
    (by rw [hamp, abs_of_pos hs.amp_pos]; exact hs.amp_le) hproductLe (by norm_num)
  obtain ⟨once, honce, honceNear, honceLe⟩ :=
    SignedDecimal.exists_mul hscaledLe hratioLe (by norm_num)
  obtain ⟨weight, hweight, hweightNear, -⟩ :=
    SignedDecimal.exists_mul honceLe hratioLe (by norm_num)
  refine ⟨⟨product, gap, weight⟩, ?_, hnear, hgapEq, ?_⟩
  · simp only [Curve.coefficients, bind_eq_ok, pure_eq_ok]
    exact ⟨area, harea, quadruple, hquadruple, square, hsquare, product, hproduct, top, htop, gap,
      hgap, ratio, hratio, scaled, hscaled, once, honce, weight, hweight, rfl⟩
  · rw [hgamma] at hratioNear
    rw [hamp] at hscaledNear
    exact h.weight_near hs hnear hgapNear hratioNear hscaledNear honceNear hweightNear

/-- `F` is computed, to six millionths of its derivative. -/
theorem exists_residual : ∃ v, a.curve.residual e y = .ok v ∧
    |v.toRat - a.exactResidual d x| ≤ 6 / 10 ^ 6 * -a.exactSlope d x ∧ |v.toRat| ≤ 10 ^ 30 := by
  obtain ⟨c, hc, -, -, hweight⟩ := h.exists_coefficients hs he hx
  have hweightLe := h.abs_computed_weight_le hs hweight
  obtain ⟨hbase, hquote⟩ := abs_balance_le hs hx
  have hsize := h.abs_size_le hs he
  have hfour : 1 ≤ 1 * |SignedDecimal.four.toRat| := by rw [SignedDecimal.toRat_four]; norm_num
  obtain ⟨square, hsquare, -, hsquareLe⟩ := SignedDecimal.exists_mul hsize hsize (by norm_num)
  obtain ⟨once, honce, -, honceLe⟩ := SignedDecimal.exists_mul hweightLe hsize (by norm_num)
  obtain ⟨sum, hsum, -, hsumLe⟩ := SignedDecimal.exists_add hbase hquote (by norm_num)
  obtain ⟨lifted, hlifted, -, hliftedLe⟩ := SignedDecimal.exists_mul honceLe hsumLe (by norm_num)
  obtain ⟨area, harea, -, hareaLe⟩ := SignedDecimal.exists_mul hbase hquote (by norm_num)
  obtain ⟨upper, hupper, -, hupperLe⟩ := SignedDecimal.exists_add hliftedLe hareaLe (by norm_num)
  obtain ⟨pulled, hpulled, -, hpulledLe⟩ :=
    SignedDecimal.exists_mul hweightLe hsquareLe (by norm_num)
  obtain ⟨mid, hmid, -, hmidLe⟩ := SignedDecimal.exists_sub hupperLe hpulledLe (by norm_num)
  obtain ⟨quarter, hquarter, -, hquarterLe⟩ :=
    SignedDecimal.exists_div hsquareLe hfour (by norm_num)
  obtain ⟨v, hv, -, hvLe⟩ := SignedDecimal.exists_sub hmidLe hquarterLe (by norm_num)
  have hvalue : a.curve.residual e y = .ok v := by
    simp only [Curve.residual, bind_eq_ok]
    exact ⟨c, hc, square, hsquare, once, honce, sum, hsum, lifted, hlifted, area, harea, upper,
      hupper, pulled, hpulled, mid, hmid, quarter, hquarter, hv⟩
  refine ⟨v, hvalue, ?_, hvLe.trans (by norm_num)⟩
  subst he hx
  have hnear := residual_error h.pos (add_nonneg (hs.nonneg .base) (hs.nonneg .quote)) hc hvalue
  exact hnear.trans (h.residual_error_le hs hweight)

/-- The derivative is computed, to a hundred thousandth of itself. -/
theorem exists_slope : ∃ v, a.curve.slopeInvariant e y = .ok v ∧
    |v.toRat - a.exactSlope d x| ≤ 1 / 10 ^ 5 * -a.exactSlope d x := by
  obtain ⟨c, hc, hproduct, hgap, hweight⟩ := h.exists_coefficients hs he hx
  have hweightLe := h.abs_computed_weight_le hs hweight
  have hgapFar := h.gap_far hs hproduct hgap
  have hproductLe := h.abs_product_le hs hproduct
  obtain ⟨hbase, hquote⟩ := abs_balance_le hs hx
  have hsize := h.abs_size_le hs he
  have hone : |SignedDecimal.one.toRat| ≤ 1 := by rw [SignedDecimal.toRat_one, abs_one]
  have htwo : |SignedDecimal.two.toRat| ≤ 2 := by rw [SignedDecimal.toRat_two, abs_two]
  have htwoFar : 1 ≤ 1 * |SignedDecimal.two.toRat| := by rw [SignedDecimal.toRat_two]; norm_num
  obtain ⟨twice, htwice, -, htwiceLe⟩ := SignedDecimal.exists_mul hweightLe htwo (by norm_num)
  obtain ⟨top, htop, -, htopLe⟩ := SignedDecimal.exists_add (abs_gamma_le hs) hone (by norm_num)
  obtain ⟨grown, hgrown, -, hgrownLe⟩ := SignedDecimal.exists_add htopLe hproductLe (by norm_num)
  obtain ⟨lifted, hlifted, -, hliftedLe⟩ :=
    SignedDecimal.exists_mul htwiceLe hgrownLe (by norm_num)
  obtain ⟨rise, hrise, -, hriseLe⟩ := SignedDecimal.exists_div hliftedLe hgapFar (by norm_num)
  rw [← abs_neg, ← SignedDecimal.toRat_neg] at hriseLe
  obtain ⟨first, hfirst, -, hfirstLe⟩ := SignedDecimal.exists_add hriseLe hweightLe (by norm_num)
  obtain ⟨sum, hsum, -, hsumLe⟩ := SignedDecimal.exists_add hbase hquote (by norm_num)
  obtain ⟨upper, hupper, -, hupperLe⟩ := SignedDecimal.exists_mul hfirstLe hsumLe (by norm_num)
  obtain ⟨second, hsecond, -, hsecondLe⟩ :=
    SignedDecimal.exists_add hriseLe htwiceLe (by norm_num)
  obtain ⟨lower, hlower, -, hlowerLe⟩ := SignedDecimal.exists_mul hsecondLe hsize (by norm_num)
  obtain ⟨mid, hmid, -, hmidLe⟩ := SignedDecimal.exists_sub hupperLe hlowerLe (by norm_num)
  obtain ⟨half, hhalf, -, hhalfLe⟩ := SignedDecimal.exists_div hsize htwoFar (by norm_num)
  obtain ⟨v, hv, -, -⟩ := SignedDecimal.exists_sub hmidLe hhalfLe (by norm_num)
  have hslope : a.curve.slopeInvariant e y = .ok v := by
    simp only [Curve.slopeInvariant, bind_eq_ok]
    exact ⟨c, hc, twice, htwice, top, htop, grown, hgrown, lifted, hlifted, rise, hrise, first,
      hfirst, sum, hsum, upper, hupper, second, hsecond, lower, hlower, mid, hmid, half, hhalf, hv⟩
  have hfine : Decimal.ulp ≤ a.exactGap d x / 600000 := by
    rw [Decimal.ulp_eq]
    linarith [h.gap_ge_small hs]
  refine ⟨v, hslope, ?_⟩
  subst he hx
  have hnear := slope_error h.pos hs.gamma_le (hs.product_pos h.pos) (h.gap_pos hs) (h.gap_le hs)
    hfine hc hslope hproduct hgap hweight
  exact hnear.trans (h.slope_error_le hs hweight)

/-! ### The step -/

/-- The quotient of a step is computed, and it follows the tangent. -/
theorem exists_quotient : ∃ v s q : SignedDecimal, a.curve.residual e y = .ok v ∧
    a.curve.slopeInvariant e y = .ok s ∧ (v / s : Except Fault SignedDecimal) = .ok q ∧
    |q.toRat| ≤ 10 ^ 31 ∧ |a.exactResidual d x + a.exactSlope d x * -q.toRat| ≤
      (8 / 10 ^ 6 + |q.toRat| / 10 ^ 4) * -a.exactSlope d x := by
  obtain ⟨v, hv, hvNear, hvLe⟩ := h.exists_residual hs he hx
  obtain ⟨s, hslope, hsNear⟩ := h.exists_slope hs he hx
  have hsteep : 199 / 200 ≤ -a.exactSlope d x := by
    have hweight := mul_pos (h.weight_pos hs) h.pos
    linarith [h.neg_slope_ge hs, h.size_ge hs]
  generalize a.exactResidual d x = f at *
  generalize a.exactSlope d x = f' at *
  obtain ⟨hsLow, hsHigh⟩ := abs_le.mp hsNear
  have hsAbs : |s.toRat| = -s.toRat := abs_of_neg (by linarith)
  have hsFar : 1 ≤ 2 * |s.toRat| := by
    rw [hsAbs]
    linarith
  obtain ⟨q, hq, hqNear, hqLe⟩ := SignedDecimal.exists_div hvLe hsFar (by norm_num)
  refine ⟨v, s, q, hv, hslope, hq, hqLe.trans (by norm_num), ?_⟩
  have hnear := quotient_near (f := f) (g := f') (v := v.toRat) (q := q.toRat)
    (by linarith : s.toRat ≠ 0)
  rw [Decimal.ulp_eq] at hqNear
  have hrounded := mul_le_mul (by rw [hsAbs]; linarith : |s.toRat| ≤ 2 * -f') hqNear (abs_nonneg _)
    (by linarith)
  have hturned := mul_le_mul_of_nonneg_right hsNear (abs_nonneg q.toRat)
  have hlength := mul_nonneg (abs_nonneg q.toRat) (by linarith : 0 ≤ -f')
  linarith

omit he hx in
/-- A step that follows the tangent does not go back by more than half of the invariant. -/
theorem quotient_le {q : ℚ} (hq : |a.exactResidual d x + a.exactSlope d x * -q| ≤
    (8 / 10 ^ 6 + |q| / 10 ^ 4) * -a.exactSlope d x) : q ≤ d / 2 := by
  have hslope := h.neg_slope_pos hs
  have hd := h.pos
  have hback : -(d / 5 * -a.exactSlope d x) ≤ a.exactResidual d x := by
    have hvalue := h.value_ge
    rw [tangent_value, h.span_eq hs] at hvalue
    have hshare := mul_le_mul_of_nonneg_right (mul_le_of_le_one_left hd.le
      (exactShare_le_one (hs.product_pos hd) (h.gap_pos hs))) hslope.le
    linarith
  rcases le_total q 0 with hneg | hpos
  · linarith
  · rw [abs_of_nonneg hpos] at hq
    refine le_of_mul_le_mul_right ?_ hslope
    have hlarge := mul_le_mul_of_nonneg_right (h.size_ge hs) hslope.le
    linarith [(abs_le.mp hq).2]

omit he hx in
/-- A step that is longer than the tolerance follows the tangent to a hundredth of its length. -/
theorem exists_follows {e : ℚ} (hfar : Limits.tolerance.toRat < |e - d|)
    (htangent : |a.exactResidual d x + a.exactSlope d x * (e - d)| ≤
      (8 / 10 ^ 6 + |e - d| / 10 ^ 4) * -a.exactSlope d x) :
    ∃ ρ, e = a.moved d x ρ ∧ (a.tangent d x).Follows ρ ∧
      Limits.tolerance.toRat < |ρ| * (a.tangent d x).reach := by
  have hreach : 0 < a.exactShare d x * d := (h.regular hs).reach_pos
  have hlength : (e - d) / (a.exactShare d x * d) * (a.exactShare d x * d) = e - d :=
    div_mul_cancel₀ _ hreach.ne'
  generalize (e - d) / (a.exactShare d x * d) = ρ at hlength
  have habs : |e - d| = |ρ| * (a.exactShare d x * d) := by
    rw [← hlength, abs_mul, abs_of_pos hreach]
  refine ⟨ρ, ?_, ?_, habs ▸ hfar⟩
  · unfold moved
    linarith
  · have hstep : a.exactResidual d x + a.exactSlope d x * (e - d) =
        -(ρ * (a.tangent d x).span - (a.tangent d x).value) := by
      rw [tangent_value, h.span_eq hs, ← hlength]
      ring
    rw [hstep, abs_neg] at htangent
    rw [Limits.tolerance_toRat] at hfar
    have hslope := h.neg_slope_pos hs
    have hscaled := mul_le_mul_of_nonneg_right hfar.le hslope.le
    have hspan : |ρ| * (a.tangent d x).span = |e - d| * -a.exactSlope d x := by
      rw [h.span_eq hs, habs]
      ring
    unfold Tangent.Follows
    rw [hspan]
    linarith

/-- In the basin a step is carried out. It ends at a positive number, and it is off the tangent by
eight millionths of a unit and a ten thousandth of its length. -/
theorem exists_step : ∃ next, a.curve.stepInvariant y e = .ok next ∧ 0 < next.toRat ∧
    |next.toRat| ≤ 10 ^ 32 ∧
    |a.exactResidual d x + a.exactSlope d x * (next.toRat - d)| ≤
      (8 / 10 ^ 6 + |next.toRat - d| / 10 ^ 4) * -a.exactSlope d x := by
  obtain ⟨v, s, q, hv, hslope, hq, hqLe, htangent⟩ := h.exists_quotient hs he hx
  obtain ⟨next, hnext, hnextEq, hnextLe⟩ :=
    SignedDecimal.exists_sub (h.abs_size_le hs he) hqLe (by norm_num)
  have hstep : next.toRat - d = -q.toRat := by rw [hnextEq, he, sub_sub_cancel_left]
  have hpos : 0 < next.toRat := by linarith [h.quotient_le hs htangent, h.pos]
  refine ⟨next, ?_, hpos, hnextLe.trans (by norm_num), by rwa [hstep, abs_neg]⟩
  have hraw : 0 < next.raw := by
    have hscale := Decimal.cast_scale_pos
    exact_mod_cast (div_pos_iff_of_pos_right hscale).mp hpos
  simp only [Curve.stepInvariant, Curve.newtonStep, bind_eq_ok]
  refine ⟨v, hv, s, hslope, q, hq, next, hnext, ?_⟩
  rw [if_neg]
  · rfl
  · simp only [SignedDecimal.isNegative, SignedDecimal.isZero, Bool.or_eq_true, decide_eq_true_eq,
      beq_iff_eq]
    omega

end Computed

end Basin

end AmpGamma

end ConcentratedPool
