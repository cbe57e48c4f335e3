import ConcentratedPool.Proofs.DecimalRounding
import ConcentratedPool.Proofs.GeometricMean
import ConcentratedPool.Proofs.ParameterRanges
import ConcentratedPool.Proofs.Refusals
import ConcentratedPool.Proofs.SolverAccuracy

/-!
# The invariant of even balances

Balances that are the same on both sides, `b`, have the invariant `2 b`, whatever the curve
parameters are. The solver starts at twice their geometric mean, which rounding places at `2 b` or
two units of the last place below (`raw_of_geometricMean_self`). There `K₀` is one up to a few
units, so that the gap `γ + 1 - K₀` is about `γ`, and the weight `K` may be very large. It enters
the residual and its derivative alike: the computed residual is at most `ulp (5 K b + 9 b)`
(`NearSum.abs_residual_le`), the computed derivative at least nine tenths of `2 K b + b` in absolute
value (`NearSum.slope_le`), and the first step is eleven units at most. So the solver stops after
it, and within thirteen units of `2 b`.

Up to there nothing is divided by zero and no square root is taken of a negative number, so that the
only refusal is that of a number beyond 256 bits (`AmpGamma.invariant_of_even`).
-/

set_option autoImplicit false
set_option relaxedAutoImplicit false

namespace ConcentratedPool

/-- A number beyond the range of decimals. -/
def Fault.IsOverflow (fault : Fault) : Prop :=
  fault = .arithmetic .overflow ∨ fault = .arithmetic .signedOverflow

theorem Fault.isOverflow_overflow : IsOverflow (.arithmetic .overflow) := .inl rfl

theorem Fault.isOverflow_signedOverflow : IsOverflow (.arithmetic .signedOverflow) := .inr rfl

/-! ### The start -/

/-- The geometric mean of a balance of one unit or more with itself is that balance, or one unit of
the last place less. -/
theorem raw_of_geometricMean_self {x m : Decimal} (hx : Decimal.one ≤ x)
    (h : geometricMean ⟨x, x⟩ = .ok m) : m.raw ≤ x.raw ∧ x.raw ≤ m.raw + 1 := by
  obtain ⟨-, hm⟩ := geometricMean_eq_ok.mp h
  set area := x.raw * x.raw / Decimal.scale
  have hle : area * Decimal.scale ≤ x.raw * x.raw := Nat.div_mul_le_self _ _
  have hlt : x.raw * x.raw < area * Decimal.scale + Decimal.scale :=
    Nat.lt_div_mul_add Decimal.scale_pos
  have hone : Decimal.scale ≤ x.raw := Decimal.le_def.mp hx
  rw [hm]
  constructor
  · exact (Nat.sqrt_le_sqrt hle).trans (Nat.sqrt_eq x.raw).le
  · obtain ⟨y, hy⟩ : ∃ y, x.raw = y + 1 :=
      ⟨x.raw - 1, (Nat.sub_add_cancel (Decimal.scale_pos.trans_le hone)).symm⟩
    rw [hy, Nat.add_le_add_iff_right, Nat.le_sqrt]
    rw [hy] at hlt hone
    -- The square of the next smaller number is less by more than the rounding of the area.
    have hsq : (y + 1) * (y + 1) = y * y + y + (y + 1) := by ring
    omega

/-- An invariant `d` that is the sum of two balances `b` of one unit or more, or two units of the
last place less than it. -/
structure NearSum (b d : ℚ) : Prop where
  one_le : 1 ≤ b
  le : d ≤ 2 * b
  sub_le : 2 * b - 2 * Decimal.ulp ≤ d

/-- The solver of the invariant starts near the sum of even balances. -/
theorem nearSum_of_start {x m start : Decimal} (hx : Decimal.one ≤ x)
    (hm : geometricMean ⟨x, x⟩ = .ok m)
    (hstart : (Decimal.two * m : Except Fault Decimal) = .ok start) :
    NearSum x.toSigned.toRat start.toSigned.toRat := by
  have hscale := Decimal.cast_scale_pos
  obtain ⟨hle, hlt⟩ := raw_of_geometricMean_self hx hm
  have hraw : start.raw = 2 * m.raw := by
    rw [Decimal.mul_eq_ok.mp hstart]
    change 2 * Decimal.scale * m.raw / Decimal.scale = _
    rw [mul_right_comm]
    exact Nat.mul_div_cancel _ Decimal.scale_pos
  have hvalue : start.toRat = 2 * m.toRat := by
    rw [Decimal.toRat, hraw, Nat.cast_mul, mul_div_assoc]
    rfl
  have hbelow : x.toRat ≤ m.toRat + Decimal.ulp := by
    have hnext : m.toRat + Decimal.ulp = (m.raw + 1) / Decimal.scale := (add_div _ _ _).symm
    rw [hnext, Decimal.toRat]
    exact div_le_div_of_nonneg_right (by exact_mod_cast hlt) hscale.le
  have habove : m.toRat ≤ x.toRat := Decimal.toRat_le_toRat.mpr hle
  rw [SignedDecimal.toRat_toSigned, SignedDecimal.toRat_toSigned, hvalue]
  refine ⟨?_, by linarith, by linarith⟩
  rw [← Decimal.toRat_one, Decimal.toRat_le_toRat]
  exact Decimal.le_def.mp hx

namespace NearSum

variable {b d : ℚ} (h : NearSum b d)
include h

theorem large : 99 / 100 ≤ d := by
  have hb := h.one_le
  have hd := h.sub_le
  rw [Decimal.ulp_eq] at hd
  linarith

/-- `K₀` is one there, or three units of the last place more at most. -/
theorem exactProduct_mem : 1 ≤ AmpGamma.exactProduct d ⟨b, b⟩ ∧
    AmpGamma.exactProduct d ⟨b, b⟩ ≤ 1 + 3 * Decimal.ulp := by
  have hd : 0 < d := by linarith [h.large]
  have hsq : 0 < d ^ 2 := by positivity
  unfold AmpGamma.exactProduct
  constructor
  · rw [le_div_iff₀ hsq]
    nlinarith [h.le]
  · have hlow : 2 * b * (1 - Decimal.ulp) ≤ d := by
      have hunit := mul_le_mul_of_nonneg_left h.one_le Decimal.ulp_nonneg
      linarith [h.sub_le]
    have hlowSq : (2 * b * (1 - Decimal.ulp)) ^ 2 ≤ d ^ 2 := by
      refine pow_le_pow_left₀ (mul_nonneg ?_ ?_) hlow 2
      · linarith [h.one_le]
      · norm_num [Decimal.ulp_eq]
    rw [div_le_iff₀ hsq]
    calc 4 * (b * b) ≤ (1 + 3 * Decimal.ulp) * (1 - Decimal.ulp) ^ 2 * (4 * (b * b)) := by
          refine le_mul_of_one_le_left (mul_nonneg (by norm_num) (mul_self_nonneg b)) ?_
          norm_num [Decimal.ulp_eq]
      _ = (1 + 3 * Decimal.ulp) * (2 * b * (1 - Decimal.ulp)) ^ 2 := by ring
      _ ≤ (1 + 3 * Decimal.ulp) * d ^ 2 := by
          refine mul_le_mul_of_nonneg_left hlowSq ?_
          linarith [Decimal.ulp_nonneg]

/-- Apart from its rounding, the residual is what the two units of the start come to. -/
theorem residual_mem {w : ℚ} (hw : 0 ≤ w) :
    0 ≤ w * d * (b + b - d) + b * b - d ^ 2 / 4 ∧
      w * d * (b + b - d) + b * b - d ^ 2 / 4 ≤ Decimal.ulp * (4 * (w * b) + 2 * b) := by
  have hfactor : w * d * (b + b - d) + b * b - d ^ 2 / 4 =
      (2 * b - d) * (w * d + (2 * b + d) / 4) := by ring
  have hd : 0 ≤ d := by linarith [h.large]
  have hb := h.one_le
  have hshort : 0 ≤ 2 * b - d := sub_nonneg.mpr h.le
  have hrate : 0 ≤ w * d + (2 * b + d) / 4 := by positivity
  rw [hfactor]
  refine ⟨mul_nonneg hshort hrate, ?_⟩
  have hwide : w * d + (2 * b + d) / 4 ≤ 2 * (w * b) + b := by
    have hpull := mul_le_mul_of_nonneg_left h.le hw
    linarith [h.le]
  calc (2 * b - d) * (w * d + (2 * b + d) / 4)
      ≤ 2 * Decimal.ulp * (2 * (w * b) + b) :=
        mul_le_mul (by linarith [h.sub_le]) hwide hrate (by linarith [Decimal.ulp_nonneg])
    _ = Decimal.ulp * (4 * (w * b) + 2 * b) := by ring

/-- The rounded residual is small. -/
theorem abs_residual_le {v w : ℚ} (hw : 0 ≤ w)
    (hv : |v - (w * d * (b + b - d) + b * b - d ^ 2 / 4)| ≤ Decimal.ulp * (b + b + |w| + 5)) :
    |v| ≤ Decimal.ulp * (5 * (w * b) + 9 * b) := by
  obtain ⟨hlow, hhigh⟩ := h.residual_mem hw
  have hweight : w ≤ w * b := le_mul_of_one_le_right hw h.one_le
  have hrounded : Decimal.ulp * (b + b + |w| + 5) ≤ Decimal.ulp * (w * b + 7 * b) := by
    rw [abs_of_nonneg hw]
    exact mul_le_mul_of_nonneg_left (by linarith [h.one_le]) Decimal.ulp_nonneg
  have htriangle := abs_sub_abs_le_abs_sub v (w * d * (b + b - d) + b * b - d ^ 2 / 4)
  rw [abs_of_nonneg hlow] at htriangle
  linarith

/-- The rounded derivative is steep, in the same terms. That the weight changes with the invariant
only makes it steeper. -/
theorem slope_le {s w rise : ℚ} (hw : 0 ≤ w) (hrise : 0 ≤ rise)
    (hs : |s - ((-rise + w) * (b + b) - (-rise + 2 * w) * d - d / 2)| ≤ Decimal.ulp * (3 + d)) :
    9 / 10 * (2 * (w * b) + b) ≤ -s := by
  have hweight : w ≤ w * b := le_mul_of_one_le_right hw h.one_le
  have hsteeper : 0 ≤ rise * (2 * b - d) := mul_nonneg hrise (sub_nonneg.mpr h.le)
  have hpull : w * (2 * b - 2 * Decimal.ulp) ≤ w * d := mul_le_mul_of_nonneg_left h.sub_le hw
  have hupper := (abs_le.mp hs).2
  have hb := h.one_le
  have hle := h.le
  have hlow := h.sub_le
  rw [Decimal.ulp_eq] at *
  linarith

/-- So a step is eleven units of the last place at most. -/
theorem abs_step_le {v s q w : ℚ} (hw : 0 ≤ w)
    (hv : |v| ≤ Decimal.ulp * (5 * (w * b) + 9 * b)) (hs : 9 / 10 * (2 * (w * b) + b) ≤ -s)
    (hq : |q - v / s| ≤ Decimal.ulp) : |q| ≤ 11 * Decimal.ulp := by
  have hb := h.one_le
  have hwb : 0 ≤ w * b := mul_nonneg hw (by linarith)
  have hneg : s < 0 := by linarith
  have hquotient : |v / s| ≤ 10 * Decimal.ulp := by
    rw [abs_div, abs_of_neg hneg, div_le_iff₀ (neg_pos.mpr hneg)]
    calc |v| ≤ Decimal.ulp * (5 * (w * b) + 9 * b) := hv
      _ ≤ Decimal.ulp * (10 * (9 / 10 * (2 * (w * b) + b))) :=
          mul_le_mul_of_nonneg_left (by linarith) Decimal.ulp_nonneg
      _ ≤ Decimal.ulp * (10 * -s) :=
          mul_le_mul_of_nonneg_left (by linarith) Decimal.ulp_nonneg
      _ = 10 * Decimal.ulp * -s := by ring
  calc |q| ≤ |q - v / s| + |v / s| := by simpa using abs_add_le (q - v / s) (v / s)
    _ ≤ Decimal.ulp + 10 * Decimal.ulp := add_le_add hq hquotient
    _ = 11 * Decimal.ulp := by ring

end NearSum

/-! ### The first step -/

namespace AmpGamma

section Step

variable {a : AmpGamma} {b d : SignedDecimal} {c : Curve.Coefficients}
variable (h : NearSum b.toRat d.toRat) (hγ : 1 / 10 ^ 7 ≤ a.gamma.toRat)

section Coefficients

variable {area quadruple square product top gap : SignedDecimal}

include h in
theorem square_pos_of_even (hsquare : (d * d : Except Fault SignedDecimal) = .ok square) :
    0 < square.toRat := by
  have hd := h.large
  have hnear := (abs_le.mp (SignedDecimal.abs_mul_sub_le hsquare)).1
  rw [Decimal.ulp_eq] at hnear
  nlinarith

include h in
theorem product_near_one (harea : (b * b : Except Fault SignedDecimal) = .ok area)
    (hquadruple : (area * SignedDecimal.four : Except Fault SignedDecimal) = .ok quadruple)
    (hsquare : (d * d : Except Fault SignedDecimal) = .ok square)
    (hproduct : (quadruple / square : Except Fault SignedDecimal) = .ok product) :
    |product.toRat - 1| ≤ 11 * Decimal.ulp := by
  obtain ⟨hone, hle⟩ := h.exactProduct_mem
  have hlarge : exactProduct d.toRat ⟨b.toRat, b.toRat⟩ ≤ 51 / 50 := by
    rw [Decimal.ulp_eq] at hle
    linarith
  have herror : |product.toRat - exactProduct d.toRat ⟨b.toRat, b.toRat⟩| ≤ 8 * Decimal.ulp :=
    product_error (x := ⟨b, b⟩) h.large (zero_le_one.trans hone) hlarge harea hquadruple hsquare
      hproduct
  obtain ⟨hlow, hhigh⟩ := abs_le.mp herror
  rw [abs_le]
  constructor
  · linarith [Decimal.ulp_nonneg]
  · linarith

include hγ in
theorem gap_pos_of_even
    (htop : (a.curve.gamma + SignedDecimal.one : Except Fault SignedDecimal) = .ok top)
    (hgap : (top - product : Except Fault SignedDecimal) = .ok gap)
    (hproduct : |product.toRat - 1| ≤ 11 * Decimal.ulp) : 0 < gap.toRat := by
  have hgamma : a.curve.gamma.toRat = a.gamma.toRat := SignedDecimal.toRat_toSigned _
  have hhigh := (abs_le.mp hproduct).2
  rw [SignedDecimal.toRat_sub hgap, SignedDecimal.toRat_add htop, hgamma, SignedDecimal.toRat_one]
  rw [Decimal.ulp_eq] at hhigh
  linarith

end Coefficients

include h hγ

/-- The computed coefficients are not negative, and the gap is positive. -/
theorem coefficients_of_even (hc : a.curve.coefficients d ⟨b, b⟩ = .ok c) :
    0 ≤ c.product.toRat ∧ 0 < c.gap.toRat ∧ 0 ≤ c.weight.toRat := by
  simp only [Curve.coefficients, bind_eq_ok, pure_eq_ok] at hc
  obtain ⟨area, harea, quadruple, hquadruple, square, hsquare, product, hproduct, top, htop, gap,
    hgap, ratio, hratio, scaled, hscaled, once, honce, weight, hweight, rfl⟩ := hc
  have hnear := product_near_one h harea hquadruple hsquare hproduct
  have hgapPos := gap_pos_of_even hγ htop hgap hnear
  have hproductNonneg : 0 ≤ product.toRat := by
    have hlow := (abs_le.mp hnear).1
    rw [Decimal.ulp_eq] at hlow
    linarith
  have hgamma : 0 ≤ a.curve.gamma.toRat := by
    rw [curve, SignedDecimal.toRat_toSigned]
    exact a.gamma.toRat_nonneg
  have hamp : 0 ≤ a.curve.amplification.toRat := by
    rw [curve, SignedDecimal.toRat_toSigned]
    exact a.amp.toRat_nonneg
  have hratioNonneg := (SignedDecimal.div_bounds_of_nonneg hgamma hgapPos hratio).1
  have hscaledNonneg := (SignedDecimal.mul_bounds_of_nonneg hamp hproductNonneg hscaled).1
  have honceNonneg := (SignedDecimal.mul_bounds_of_nonneg hscaledNonneg hratioNonneg honce).1
  exact ⟨hproductNonneg, hgapPos,
    (SignedDecimal.mul_bounds_of_nonneg honceNonneg hratioNonneg hweight).1⟩

/-- How fast the weight changes with the invariant is not negative, and so the derivative is
steep. -/
theorem slope_of_even {s : SignedDecimal} (hc : a.curve.coefficients d ⟨b, b⟩ = .ok c)
    (hs : a.curve.slopeInvariant d ⟨b, b⟩ = .ok s) :
    9 / 10 * (2 * (c.weight.toRat * b.toRat) + b.toRat) ≤ -s.toRat := by
  obtain ⟨hproduct, hgap, hweight⟩ := coefficients_of_even h hγ hc
  have hd : 0 < d.toRat := by linarith [h.large]
  obtain ⟨twice, grown, lifted, rise, htwice, hgrown, hlifted, hrise, hrounded⟩ :=
    exists_rise_of_slopeInvariant hd hc hs
  have htwo : 0 ≤ SignedDecimal.two.toRat := by
    rw [SignedDecimal.toRat_two]
    norm_num
  have htwiceNonneg := (SignedDecimal.mul_bounds_of_nonneg hweight htwo htwice).1
  have hgrownNonneg : 0 ≤ grown.toRat := by linarith [a.gamma.toRat_nonneg]
  have hliftedNonneg := (SignedDecimal.mul_bounds_of_nonneg htwiceNonneg hgrownNonneg hlifted).1
  have hriseNonneg := (SignedDecimal.div_bounds_of_nonneg hliftedNonneg hgap hrise).1
  have hexact := hrounded c.weight.toRat rise.toRat
  rw [sub_self, sub_self, abs_zero, zero_mul, zero_mul, zero_add, zero_add] at hexact
  exact h.slope_le hweight hriseNonneg hexact

/-- The derivative is not zero. -/
theorem slope_neg_of_even {s : SignedDecimal} (hc : a.curve.coefficients d ⟨b, b⟩ = .ok c)
    (hs : a.curve.slopeInvariant d ⟨b, b⟩ = .ok s) : s.toRat < 0 := by
  have hweight := mul_nonneg (coefficients_of_even h hγ hc).2.2 (zero_le_one.trans h.one_le)
  linarith [slope_of_even h hγ hc hs, h.one_le]

/-- A step is eleven units of the last place at most. -/
theorem quotient_of_even {v s q : SignedDecimal} (hv : a.curve.residual d ⟨b, b⟩ = .ok v)
    (hs : a.curve.slopeInvariant d ⟨b, b⟩ = .ok s)
    (hq : (v / s : Except Fault SignedDecimal) = .ok q) : |q.toRat| ≤ 11 * Decimal.ulp := by
  obtain ⟨c, hc, -⟩ := bind_eq_ok.mp hv
  have hb : 0 ≤ b.toRat + b.toRat := by linarith [h.one_le]
  obtain ⟨-, -, hweight⟩ := coefficients_of_even h hγ hc
  exact h.abs_step_le hweight
    (h.abs_residual_le hweight (residual_near_computed (x := ⟨b, b⟩) hb hc hv))
    (slope_of_even h hγ hc hs) (SignedDecimal.abs_div_sub_le hq).2

/-- A step goes to a positive number, eleven units of the last place away at most. -/
theorem step_of_even {next : SignedDecimal} (hstep : a.curve.stepInvariant ⟨b, b⟩ d = .ok next) :
    0 < next.toRat ∧ |next.toRat - d.toRat| ≤ 11 * Decimal.ulp := by
  simp only [Curve.stepInvariant, Curve.newtonStep, bind_eq_ok] at hstep
  obtain ⟨v, hv, s, hs, q, hq, moved, hmoved, hstep⟩ := hstep
  have hquotient := quotient_of_even h hγ hv hs hq
  have hvalue := SignedDecimal.toRat_sub hmoved
  have hpos : 0 < moved.toRat := by
    have hhigh := (abs_le.mp hquotient).2
    rw [Decimal.ulp_eq] at hhigh
    linarith [h.large]
  have hraw := SignedDecimal.toRat_pos.mp hpos
  have hkept : (moved.isNegative || moved.isZero) = false := by
    simp [SignedDecimal.isNegative, SignedDecimal.isZero, hraw.ne', hraw.le]
  rw [hkept, if_neg Bool.false_ne_true, pure_eq_ok] at hstep
  obtain rfl := hstep
  refine ⟨hpos, ?_⟩
  rw [hvalue, sub_sub_cancel_left, abs_neg]
  exact hquotient

/-! ### Refusals -/

theorem refusedOnly_coefficients_of_even :
    RefusedOnly Fault.IsOverflow (a.curve.coefficients d ⟨b, b⟩) := by
  have hover := Fault.isOverflow_signedOverflow
  simp only [Curve.coefficients, RefusedOnly.bind_iff, RefusedOnly.signedMul hover,
    RefusedOnly.signedAdd hover, RefusedOnly.signedSub hover, RefusedOnly.pure, implies_true,
    and_true, true_and]
  intro area harea quadruple hquadruple square hsquare
  refine ⟨.signedDiv hover fun hzero ↦ ?_, fun product hproduct top htop gap hgap ↦
    .signedDiv hover fun hzero ↦ ?_⟩
  · exact absurd hzero (SignedDecimal.toRat_pos.mp (square_pos_of_even h hsquare)).ne'
  · have hnear := product_near_one h harea hquadruple hsquare hproduct
    exact absurd hzero (SignedDecimal.toRat_pos.mp (gap_pos_of_even hγ htop hgap hnear)).ne'

theorem refusedOnly_step_of_even :
    RefusedOnly Fault.IsOverflow (a.curve.stepInvariant ⟨b, b⟩ d) := by
  have hover := Fault.isOverflow_signedOverflow
  have htwo : SignedDecimal.two.raw ≠ 0 := by decide
  have hfour : SignedDecimal.four.raw ≠ 0 := by decide
  have hcoefficients := refusedOnly_coefficients_of_even h hγ
  have hresidual : RefusedOnly Fault.IsOverflow (a.curve.residual d ⟨b, b⟩) := by
    simp only [Curve.residual, RefusedOnly.bind_iff, RefusedOnly.signedMul hover,
      RefusedOnly.signedAdd hover, RefusedOnly.signedSub hover, hcoefficients,
      RefusedOnly.signedDiv hover fun hzero ↦ absurd hzero hfour, implies_true, and_true]
  have hslope : RefusedOnly Fault.IsOverflow (a.curve.slopeInvariant d ⟨b, b⟩) := by
    simp only [Curve.slopeInvariant, RefusedOnly.bind_iff, RefusedOnly.signedMul hover,
      RefusedOnly.signedAdd hover, RefusedOnly.signedSub hover, hcoefficients,
      RefusedOnly.signedDiv hover fun hzero ↦ absurd hzero htwo, implies_true, and_true, true_and]
    intro c hc twice htwice top htop grown hgrown lifted hlifted
    refine .signedDiv hover fun hzero ↦ ?_
    exact absurd hzero (SignedDecimal.toRat_pos.mp (coefficients_of_even h hγ hc).2.1).ne'
  simp only [Curve.stepInvariant, Curve.newtonStep, RefusedOnly.bind_iff, RefusedOnly.ite_iff,
    RefusedOnly.signedSub hover, RefusedOnly.pure, hresidual, hslope,
    RefusedOnly.signedDiv hover fun hzero ↦ absurd hzero htwo, implies_true, and_true, true_and]
  intro v hv s hs
  obtain ⟨c, hc, -⟩ := bind_eq_ok.mp hv
  refine .signedDiv hover fun hzero ↦ absurd (slope_neg_of_even h hγ hc hs) ?_
  rw [SignedDecimal.toRat, hzero, Int.cast_zero, zero_div]
  exact lt_irrefl 0

/-! ### The solver -/

/-- The test after a step tells that it was short. -/
theorem isClose_of_even {next : SignedDecimal} {close : Bool}
    (hstep : a.curve.stepInvariant ⟨b, b⟩ d = .ok next)
    (hclose : SignedDecimal.isClose next d = .ok close) : close = true := by
  refine (SignedDecimal.isClose_eq_ok hclose).mpr ((step_of_even h hγ hstep).2.trans ?_)
  norm_num [Limits.tolerance_toRat, Decimal.ulp_eq]

/-- The solver stops after the first step, within thirteen units of the last place of the sum, and
refuses overflow only. -/
theorem settle_of_even (steps : ℕ) :
    (∀ r, settle .invariant (a.curve.stepInvariant ⟨b, b⟩) SignedDecimal.isClose (steps + 1) d =
        .ok r → 0 < r.toRat ∧ |r.toRat - 2 * b.toRat| ≤ 13 * Decimal.ulp) ∧
      RefusedOnly Fault.IsOverflow
        (settle .invariant (a.curve.stepInvariant ⟨b, b⟩) SignedDecimal.isClose (steps + 1) d) := by
  constructor
  · intro r hr
    simp only [settle, bind_eq_ok] at hr
    obtain ⟨next, hstep, close, hclose, hr⟩ := hr
    rw [isClose_of_even h hγ hstep hclose, if_pos rfl, pure_eq_ok] at hr
    subst hr
    obtain ⟨hpos, hnear⟩ := step_of_even h hγ hstep
    obtain ⟨hlow, hhigh⟩ := abs_le.mp hnear
    refine ⟨hpos, abs_le.mpr ⟨?_, ?_⟩⟩
    · linarith [h.sub_le]
    · linarith [h.le, Decimal.ulp_nonneg]
  · simp only [settle, RefusedOnly.bind_iff, RefusedOnly.ite_iff, RefusedOnly.pure,
      refusedOnly_step_of_even h hγ, RefusedOnly.isClose Fault.isOverflow_signedOverflow,
      implies_true, true_and]
    intro next hstep close hclose hfar
    exact absurd (isClose_of_even h hγ hstep hclose) hfar

end Step

/-- Two equal balances of one unit or more are handed to the solver. -/
theorem invariant_eq_solveInvariant {a : AmpGamma} {x : Decimal} (hx : Decimal.one ≤ x) :
    a.invariant [x, x] = a.curve.solveInvariant ⟨x, x⟩ := by
  have hnonzero : (⟨x, x⟩ : Pair Decimal).any Decimal.isZero = false := by
    have hpos : x.isZero = false :=
      Decimal.isZero_eq_false.mpr (Decimal.scale_pos.trans_le (Decimal.le_def.mp hx)).ne'
    rw [Pair.any, hpos, Bool.or_self]
  have hpositive : positiveBalances [x, x] = .ok ⟨x, x⟩ := by
    change positiveBalances (⟨x, x⟩ : Pair Decimal).toList = _
    simp only [positiveBalances, Pair.ofBalances, Pair.ofList?_toList, bind_eq_ok, refuse_eq_ok,
      pure_eq_ok]
    exact ⟨_, rfl, ne_true_of_eq_false hnonzero, rfl⟩
  rw [invariant, hpositive, ok_bind]

/-- The invariant of two equal balances of one unit or more, for all curve parameters that may be
set, is their sum within `10⁻¹⁶`, or else it is refused because a number is beyond 256 bits. -/
theorem invariant_of_even {a : AmpGamma} {amp gamma x : Decimal}
    (ha : AmpGamma.new amp gamma = .ok a) (hx : Decimal.one ≤ x) :
    (∃ d, a.invariant [x, x] = .ok d ∧ |d.toRat - 2 * x.toRat| ≤ 1 / 10 ^ 16) ∨
      ∃ fault, a.invariant [x, x] = .error fault ∧ fault.IsOverflow := by
  obtain ⟨-, hγ, -⟩ := (new_eq_ok.mp ha).2.toRat_bounds
  have hover := Fault.isOverflow_overflow
  have hsettle {m start : Decimal} (hm : geometricMean ⟨x, x⟩ = .ok m)
      (hstart : (Decimal.two * m : Except Fault Decimal) = .ok start) :=
    settle_of_even (nearSum_of_start hx hm hstart) hγ (Limits.maxIterations - 1)
  rw [invariant_eq_solveInvariant hx]
  cases hresult : a.curve.solveInvariant ⟨x, x⟩ with
  | ok d =>
    refine .inl ⟨d, rfl, ?_⟩
    simp only [Curve.solveInvariant, bind_eq_ok] at hresult
    obtain ⟨m, hm, start, hstart, r, hr, hd⟩ := hresult
    have hnear := ((hsettle hm hstart).1 r hr).2
    rw [SignedDecimal.toRat_toSigned] at hnear
    rw [SignedDecimal.toRat_of_toUnsigned hd]
    refine hnear.trans ?_
    norm_num [Decimal.ulp_eq]
  | error fault =>
    refine .inr ⟨fault, rfl, ?_⟩
    have hmean : RefusedOnly Fault.IsOverflow (geometricMean ⟨x, x⟩) := by
      simp only [geometricMean, RefusedOnly.bind_iff, RefusedOnly.mul hover,
        RefusedOnly.sqrt hover, implies_true, and_true]
    have hrefused : RefusedOnly Fault.IsOverflow (a.curve.solveInvariant ⟨x, x⟩) := by
      simp only [Curve.solveInvariant, RefusedOnly.bind_iff, RefusedOnly.mul hover, hmean,
        true_and]
      intro m hm start hstart
      obtain ⟨hvalue, honly⟩ := hsettle hm hstart
      refine ⟨honly, fun r hr ↦ .toUnsigned hover fun hneg ↦ ?_⟩
      exact absurd hneg (SignedDecimal.toRat_pos.mp (hvalue r hr).1).le.not_gt
    exact hrefused fault hresult

/-- A balance whose square is beyond 256 bits. -/
def beyondSquare : Decimal := ⟨10 ^ 58 * Decimal.scale, by decide⟩

/-- At the largest amplification and the smallest concentration, where the gap is about `10⁻⁷`, one
unit on each side has the invariant two, and balances whose product is beyond 256 bits have none. -/
theorem invariant_of_even_extreme :
    ∃ a, new Limits.maxAmplification Limits.minGamma = .ok a ∧ Decimal.one ≤ Decimal.one ∧
      (∃ d, a.invariant [.one, .one] = .ok d ∧ |d.toRat - 2 * Decimal.one.toRat| ≤ 1 / 10 ^ 16) ∧
      Decimal.one ≤ beyondSquare ∧
      ∃ fault, a.invariant [beyondSquare, beyondSquare] = .error fault ∧ fault.IsOverflow := by
  have hnew : new Limits.maxAmplification Limits.minGamma =
      .ok ⟨Limits.maxAmplification, Limits.minGamma⟩ := rfl
  refine ⟨_, hnew, by decide, ?_, by decide, ?_⟩
  · rcases invariant_of_even hnew (by decide : Decimal.one ≤ Decimal.one) with hvalue | hfault
    · exact hvalue
    · obtain ⟨fault, hfault, -⟩ := hfault
      obtain ⟨d, hd, -⟩ := exists_of_any (invariant ⟨Limits.maxAmplification, Limits.minGamma⟩
        [.one, .one]) (fun _ ↦ true) (by decide +kernel)
      exact absurd (hd.symm.trans hfault) nofun
  · rcases invariant_of_even hnew (by decide : Decimal.one ≤ beyondSquare) with hvalue | hfault
    · obtain ⟨d, hd, -⟩ := hvalue
      have hrefused : invariant ⟨Limits.maxAmplification, Limits.minGamma⟩
          [beyondSquare, beyondSquare] = .error (.arithmetic .overflow) := by decide +kernel
      exact absurd (hd.symm.trans hrefused) nofun
    · exact hfault

end AmpGamma

end ConcentratedPool
