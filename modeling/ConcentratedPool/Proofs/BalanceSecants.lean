import ConcentratedPool.Proofs.CurveSecants

/-!
# Tangents and secants along a balance

The solver of a balance follows the tangent of `F` as a function of one balance `y`, where the
invariant `d` and the other balance `x` are fixed. Along a balance the curve bends on the scale of
the gap `γ + 1 - K₀` times that balance. To the right `F` grows by no less than its tangent does,
since the weight is convex there (`AmpGamma.secant_right_balance`); to the left, over a small part
of that length, it falls by more than half of what the tangent does
(`AmpGamma.secant_left_balance`).

So where the gap times the balance is some multiple of a tolerance, and a step that is within the
tolerance has led from an iterate to the next one, up to an error that is small beside the
tolerance, the root of the curve is within the tolerance of that next one
(`AmpGamma.StraightBalance.straddles`).
-/

set_option autoImplicit false
set_option relaxedAutoImplicit false

namespace ConcentratedPool

namespace AmpGamma

variable (a : AmpGamma)

/-- The derivative of the weight by the balance `y`. -/
def exactLift (d x y : ℚ) : ℚ :=
  a.exactWeight (exactProduct d ⟨x, y⟩) * (a.gamma.toRat + 1 + exactProduct d ⟨x, y⟩) /
    (a.exactGap d ⟨x, y⟩ * y)

/-- The derivative of `F` by the balance `y`. -/
def balanceSlope (d x y : ℚ) : ℚ :=
  a.exactLift d x y * d * (x + y - d) + a.exactPull d ⟨x, y⟩ + x

/-- The terms of that derivative, each with the sign that it has where the invariant is not above
the sum of the balances. -/
def balanceTilt (d x y : ℚ) : ℚ :=
  a.exactLift d x y * d * |x + y - d| + a.exactPull d ⟨x, y⟩ + x

variable {a} {d x y m : ℚ}

/-! ### How fast the weight changes -/

section Weight

variable {k gap gap' : ℚ}

/-- A change of the gap that is in proportion to the balance, relative to the gap, and what it adds
to the rate of the weight. -/
theorem exists_relative_change {change : ℚ} (hgap : 0 < gap) (hy : 0 < y) (hm : 0 ≤ m) (hk : 0 ≤ k)
    (hchange : change * y = k * m) :
    ∃ z, 0 ≤ z ∧ z * gap = change ∧ m * (gap + 2 * k) / (gap * y) = m / y + 2 * z := by
  have hnonneg : 0 ≤ change := nonneg_of_mul_nonneg_left (hchange ▸ mul_nonneg hk hm) hy
  refine ⟨change / gap, div_nonneg hnonneg hgap.le, div_mul_cancel₀ _ hgap.ne', ?_⟩
  have hsplit : m * (gap + 2 * k) = m * gap + 2 * (change * y) := by
    rw [hchange]
    ring
  rw [hsplit]
  field_simp

/-- Where the gap narrows with a growing balance, the weight grows by at least what its rate says:
it is inversely proportional to the square of the gap, and proportional to the balance. -/
theorem weight_grows (hgap : 0 < gap) (hgap' : 0 < gap') (hy : 0 < y) (hm : 0 ≤ m) (hk : 0 ≤ k)
    (hnext : (gap - gap') * y = k * m) :
    (1 + m * (gap + 2 * k) / (gap * y)) * (gap' ^ 2 * y) ≤ gap ^ 2 * (y + m) := by
  obtain ⟨z, hzNonneg, hz, hrate⟩ := exists_relative_change hgap hy hm hk hnext
  have hzOne : z ≤ 1 := le_of_mul_le_mul_right (by linarith) hgap
  have hgap'Eq : gap' = (1 - z) * gap := by linarith
  have he : 0 ≤ m / y := div_nonneg hm hy.le
  have hfactor : (1 + (m / y + 2 * z)) * (1 - z) ^ 2 ≤ 1 + m / y := by
    have hless : 2 * z * (1 - z) ^ 2 ≤ 2 * z - z ^ 2 := by
      have hcube : 0 ≤ z ^ 2 * (1 - z) := mul_nonneg (sq_nonneg z) (by linarith)
      linarith [sq_nonneg z]
    have hrest : 0 ≤ m / y * (2 * z - z ^ 2) := mul_nonneg he (by nlinarith)
    linarith
  calc (1 + m * (gap + 2 * k) / (gap * y)) * (gap' ^ 2 * y)
      = (1 + (m / y + 2 * z)) * (1 - z) ^ 2 * (gap ^ 2 * y) := by
        rw [hrate, hgap'Eq]
        ring
    _ ≤ (1 + m / y) * (gap ^ 2 * y) := mul_le_mul_of_nonneg_right hfactor (by positivity)
    _ = gap ^ 2 * (y + m) := by
        field_simp

/-- Where the balance shrinks by no more than a sixth, and the gap widens by no more than that, the
weight keeps more than half, and loses more than half of what its rate says. -/
theorem weight_falls (hgap : 0 < gap) (hy : 0 < y) (hm : 0 ≤ m) (hk : 0 ≤ k)
    (hnext : (gap' - gap) * y = k * m) (hnear : m ≤ y / 6) (hflat : gap' - gap ≤ gap / 6) :
    11 / 20 * (gap' ^ 2 * y) ≤ gap ^ 2 * (y - m) ∧
      11 / 20 * (m * (gap + 2 * k) / (gap * y)) * (gap' ^ 2 * y) ≤
        gap' ^ 2 * y - gap ^ 2 * (y - m) := by
  obtain ⟨z, hzNonneg, hz, hrate⟩ := exists_relative_change hgap hy hm hk hnext
  obtain ⟨e, he⟩ : ∃ e, e * y = m := ⟨m / y, div_mul_cancel₀ _ hy.ne'⟩
  have hzSmall : z ≤ 1 / 6 := le_of_mul_le_mul_right (by linarith) hgap
  have heNonneg : 0 ≤ e := nonneg_of_mul_nonneg_left (he ▸ hm) hy
  have heSmall : e ≤ 1 / 6 := le_of_mul_le_mul_right (by linarith) hy
  have heEq : m / y = e := by rw [← he, mul_div_cancel_right₀ _ hy.ne']
  have hgap'Eq : gap' = (1 + z) * gap := by linarith
  have hwide : (1 + z) ^ 2 ≤ 49 / 36 := by
    calc (1 + z) ^ 2 ≤ (1 + 1 / 6) ^ 2 := pow_le_pow_left₀ (by linarith) (by linarith) 2
      _ = 49 / 36 := by norm_num
  have hsize : 0 < gap ^ 2 * y := by positivity
  constructor
  · have hkeeps : 11 / 20 * (1 + z) ^ 2 ≤ 1 - e := by linarith
    calc 11 / 20 * (gap' ^ 2 * y) = 11 / 20 * (1 + z) ^ 2 * (gap ^ 2 * y) := by
          rw [hgap'Eq]
          ring
      _ ≤ (1 - e) * (gap ^ 2 * y) := mul_le_mul_of_nonneg_right hkeeps hsize.le
      _ = gap ^ 2 * (y - m) := by
          rw [← he]
          ring
  · have hloses : 11 / 20 * (e + 2 * z) * (1 + z) ^ 2 ≤ (1 + z) ^ 2 - (1 - e) := by
      have hscaled := mul_le_mul_of_nonneg_left hwide (by linarith : 0 ≤ 11 / 20 * (e + 2 * z))
      linarith [sq_nonneg z]
    calc 11 / 20 * (m * (gap + 2 * k) / (gap * y)) * (gap' ^ 2 * y)
        = 11 / 20 * (e + 2 * z) * (1 + z) ^ 2 * (gap ^ 2 * y) := by
          rw [hrate, heEq, hgap'Eq]
          ring
      _ ≤ ((1 + z) ^ 2 - (1 - e)) * (gap ^ 2 * y) := mul_le_mul_of_nonneg_right hloses hsize.le
      _ = gap' ^ 2 * y - gap ^ 2 * (y - m) := by
          rw [hgap'Eq, ← he]
          ring

end Weight

/-! ### Along a balance -/

/-- `K₀` is proportional to the balance. -/
theorem exactProduct_add (d x y m : ℚ) :
    (exactProduct d ⟨x, y + m⟩ - exactProduct d ⟨x, y⟩) * y = exactProduct d ⟨x, y⟩ * m := by
  unfold exactProduct
  ring

/-- The weight is proportional to the balance and inversely proportional to the square of the
gap. -/
theorem exactWeight_add (hgap : a.exactGap d ⟨x, y⟩ ≠ 0) (hgap' : a.exactGap d ⟨x, y + m⟩ ≠ 0) :
    a.exactWeight (exactProduct d ⟨x, y + m⟩) * (a.exactGap d ⟨x, y + m⟩ ^ 2 * y) =
      a.exactWeight (exactProduct d ⟨x, y⟩) * (a.exactGap d ⟨x, y⟩ ^ 2 * (y + m)) := by
  have hproduct : exactProduct d ⟨x, y + m⟩ * y = exactProduct d ⟨x, y⟩ * (y + m) := by
    have hmoved := exactProduct_add d x y m
    linarith
  have hhere : a.exactWeight (exactProduct d ⟨x, y⟩) * a.exactGap d ⟨x, y⟩ ^ 2 =
      a.amp.toRat * exactProduct d ⟨x, y⟩ * a.gamma.toRat ^ 2 :=
    div_mul_cancel₀ _ (pow_ne_zero 2 hgap)
  have hnext : a.exactWeight (exactProduct d ⟨x, y + m⟩) * a.exactGap d ⟨x, y + m⟩ ^ 2 =
      a.amp.toRat * exactProduct d ⟨x, y + m⟩ * a.gamma.toRat ^ 2 :=
    div_mul_cancel₀ _ (pow_ne_zero 2 hgap')
  rw [← mul_assoc, ← mul_assoc, hhere, hnext]
  calc a.amp.toRat * exactProduct d ⟨x, y + m⟩ * a.gamma.toRat ^ 2 * y
      = a.amp.toRat * a.gamma.toRat ^ 2 * (exactProduct d ⟨x, y + m⟩ * y) := by ring
    _ = a.amp.toRat * exactProduct d ⟨x, y⟩ * a.gamma.toRat ^ 2 * (y + m) := by
        rw [hproduct]
        ring

theorem exactResidual_balance (a : AmpGamma) (d x y : ℚ) :
    a.exactResidual d ⟨x, y⟩ = a.exactPull d ⟨x, y⟩ * (x + y - d) + x * y - d ^ 2 / 4 :=
  a.exactResidual_eq d ⟨x, y⟩

/-- The rate of the weight, in terms of the gap. -/
theorem exactLift_mul (a : AmpGamma) (d x y m : ℚ) :
    a.exactLift d x y * m = a.exactWeight (exactProduct d ⟨x, y⟩) *
      (m * (a.exactGap d ⟨x, y⟩ + 2 * exactProduct d ⟨x, y⟩) / (a.exactGap d ⟨x, y⟩ * y)) := by
  have hsum : a.gamma.toRat + 1 + exactProduct d ⟨x, y⟩ =
      a.exactGap d ⟨x, y⟩ + 2 * exactProduct d ⟨x, y⟩ := by
    unfold exactGap
    ring
  rw [exactLift, hsum]
  ring

/-- Short of `K₀ = 1` there is a gap. -/
theorem exactGap_pos_of_lt_one (heven : exactProduct d ⟨x, y⟩ < 1) : 0 < a.exactGap d ⟨x, y⟩ := by
  have hgamma := a.gamma.toRat_nonneg
  unfold exactGap
  linarith

/-- Where the invariant is not above the sum of the balances, all terms of the derivative are
positive. -/
theorem balanceSlope_eq (hsum : d ≤ x + y) : a.balanceSlope d x y = a.balanceTilt d x y := by
  rw [balanceSlope, balanceTilt, abs_of_nonneg (sub_nonneg.mpr hsum)]

/-- Where the invariant is above the sum of the balances by `w`, `F` is negative by what `w` comes
to, and by a part for how uneven the balances are. -/
theorem neg_exactResidual (a : AmpGamma) (d x y : ℚ) :
    -a.exactResidual d ⟨x, y⟩ = (d - (x + y)) * a.exactPull d ⟨x, y⟩ +
      (d - (x + y)) * (d + (x + y)) / 4 + (x - y) ^ 2 / 4 := by
  rw [exactResidual_balance]
  ring

/-- The derivative and its terms where the invariant is above the sum of the balances. The first
term has turned its sign. -/
theorem balanceTilt_and_slope_of_sum_lt (hsum : x + y < d) :
    a.balanceTilt d x y = a.exactPull d ⟨x, y⟩ + x + (d - (x + y)) * (a.exactLift d x y * d) ∧
      a.balanceSlope d x y =
        a.exactPull d ⟨x, y⟩ + x - (d - (x + y)) * (a.exactLift d x y * d) := by
  constructor
  · rw [balanceTilt, abs_of_neg (sub_neg.mpr hsum)]
    ring
  · rw [balanceSlope]
    ring

section Secants

variable (hd : 0 < d) (hx : 0 < x) (hy : 0 < y)
include hd hx hy

theorem exactProduct_pos : 0 < exactProduct d ⟨x, y⟩ := by
  unfold exactProduct
  positivity

theorem exactLift_nonneg (hgap : 0 < a.exactGap d ⟨x, y⟩) : 0 ≤ a.exactLift d x y := by
  have hk := exactProduct_pos hd hx hy
  have hweight := a.exactWeight_nonneg hk.le
  have hgamma := a.gamma.toRat_nonneg
  unfold exactLift
  positivity

/-- To the right the weight grows by at least what its rate says. -/
theorem exactWeight_right (hm : 0 ≤ m) (hgap : 0 < a.exactGap d ⟨x, y⟩)
    (hgap' : 0 < a.exactGap d ⟨x, y + m⟩) :
    a.exactWeight (exactProduct d ⟨x, y⟩) + a.exactLift d x y * m ≤
      a.exactWeight (exactProduct d ⟨x, y + m⟩) := by
  have hk := exactProduct_pos hd hx hy
  have hnext : (a.exactGap d ⟨x, y⟩ - a.exactGap d ⟨x, y + m⟩) * y =
      exactProduct d ⟨x, y⟩ * m := by
    rw [← exactProduct_add]
    unfold exactGap
    ring
  have hgrows := mul_le_mul_of_nonneg_left (weight_grows hgap hgap' hy hm hk.le hnext)
    (a.exactWeight_nonneg hk.le)
  refine le_of_mul_le_mul_right ?_ (by positivity : 0 < a.exactGap d ⟨x, y + m⟩ ^ 2 * y)
  rw [exactWeight_add hgap.ne' hgap'.ne', exactLift_mul]
  linarith

/-- To the left the weight keeps more than half, and loses more than half of what its rate says. -/
theorem exactWeight_left (hm : 0 ≤ m) (hgap : 0 < a.exactGap d ⟨x, y⟩) (hnear : m ≤ y / 6)
    (hflat : exactProduct d ⟨x, y⟩ * m ≤ a.exactGap d ⟨x, y⟩ * y / 6) :
    11 / 20 * a.exactWeight (exactProduct d ⟨x, y⟩) ≤
        a.exactWeight (exactProduct d ⟨x, y - m⟩) ∧
      11 / 20 * (a.exactLift d x y * m) ≤
        a.exactWeight (exactProduct d ⟨x, y⟩) - a.exactWeight (exactProduct d ⟨x, y - m⟩) := by
  have hk := exactProduct_pos hd hx hy
  have hnext : (a.exactGap d ⟨x, y - m⟩ - a.exactGap d ⟨x, y⟩) * y =
      exactProduct d ⟨x, y⟩ * m := by
    have hmoved := exactProduct_add d x y (-m)
    rw [← sub_eq_add_neg] at hmoved
    unfold exactGap
    linarith
  have hgrown : 0 ≤ a.exactGap d ⟨x, y - m⟩ - a.exactGap d ⟨x, y⟩ :=
    nonneg_of_mul_nonneg_left (hnext ▸ mul_nonneg hk.le hm) hy
  have hgap' : 0 < a.exactGap d ⟨x, y - m⟩ := by linarith
  have hwide : a.exactGap d ⟨x, y - m⟩ - a.exactGap d ⟨x, y⟩ ≤ a.exactGap d ⟨x, y⟩ / 6 :=
    le_of_mul_le_mul_right (by linarith) hy
  have hsame := exactWeight_add (a := a) (d := d) (x := x) (y := y) (m := -m) hgap.ne'
    (by rw [← sub_eq_add_neg]; exact hgap'.ne')
  rw [← sub_eq_add_neg] at hsame
  obtain ⟨hkeeps, hloses⟩ := weight_falls hgap hy hm hk.le hnext hnear hwide
  have hweight := a.exactWeight_nonneg hk.le
  have hpos : 0 < a.exactGap d ⟨x, y - m⟩ ^ 2 * y := by positivity
  constructor
  · refine le_of_mul_le_mul_right ?_ hpos
    rw [hsame]
    linarith [mul_le_mul_of_nonneg_left hkeeps hweight]
  · refine le_of_mul_le_mul_right ?_ hpos
    rw [sub_mul, hsame, exactLift_mul]
    linarith [mul_le_mul_of_nonneg_left hloses hweight]

/-- To the right, from where the invariant is not above the sum of the balances, `F` grows by at
least what the tangent does. -/
theorem secant_right_balance (hm : 0 ≤ m) (hgap : 0 < a.exactGap d ⟨x, y⟩)
    (hgap' : 0 < a.exactGap d ⟨x, y + m⟩) (hsum : d ≤ x + y) :
    m * a.balanceTilt d x y ≤ a.exactResidual d ⟨x, y + m⟩ - a.exactResidual d ⟨x, y⟩ := by
  have hgrows := exactWeight_right hd hx hy hm hgap hgap'
  have hlift := mul_nonneg (exactLift_nonneg hd hx hy hgap) hm
  have hfar : 0 ≤ d * (x + (y + m) - d) := mul_nonneg hd.le (by linarith)
  have hgained := mul_le_mul_of_nonneg_right hgrows hfar
  have hrest : 0 ≤ a.exactLift d x y * m * (d * m) := mul_nonneg hlift (mul_nonneg hd.le hm)
  rw [exactResidual_balance, exactResidual_balance, balanceTilt, exactPull, exactPull,
    abs_of_nonneg (sub_nonneg.mpr hsum)]
  linarith

/-- To the left, over a part of the scale on which the curve bends and as far as the invariant is
not above the sum of the balances, `F` falls by more than half of what the tangent does. -/
theorem secant_left_balance (hm : 0 ≤ m) (hgap : 0 < a.exactGap d ⟨x, y⟩) (hnear : m ≤ y / 6)
    (hflat : exactProduct d ⟨x, y⟩ * m ≤ a.exactGap d ⟨x, y⟩ * y / 6) (hsum : d ≤ x + y - m) :
    11 / 20 * (m * a.balanceTilt d x y) ≤
      a.exactResidual d ⟨x, y⟩ - a.exactResidual d ⟨x, y - m⟩ := by
  obtain ⟨hkeeps, hloses⟩ := exactWeight_left hd hx hy hm hgap hnear hflat
  have hlost := mul_le_mul_of_nonneg_right hloses
    (mul_nonneg hd.le (by linarith : 0 ≤ x + y - d))
  have hkept := mul_le_mul_of_nonneg_right hkeeps (mul_nonneg hd.le hm)
  have hother : 0 ≤ x * m := mul_nonneg hx.le hm
  rw [exactResidual_balance, exactResidual_balance, balanceTilt, exactPull, exactPull,
    abs_of_nonneg (by linarith : 0 ≤ x + y - d)]
  linarith

/-- Where the invariant has been above the sum of the balances, `F` grows by at least what its
coefficients say. -/
theorem secant_right_of_sum_lt (hm : 0 ≤ m) (hgap : 0 < a.exactGap d ⟨x, y⟩)
    (hgap' : 0 < a.exactGap d ⟨x, y + m⟩) (hsum : d ≤ x + (y + m)) :
    m * (a.exactPull d ⟨x, y⟩ + x) ≤
      a.exactResidual d ⟨x, y + m⟩ - a.exactResidual d ⟨x, y⟩ := by
  have hgrows := exactWeight_right hd hx hy hm hgap hgap'
  have hlift := mul_nonneg (exactLift_nonneg hd hx hy hgap) hm
  have hheavier :
      a.exactWeight (exactProduct d ⟨x, y⟩) ≤ a.exactWeight (exactProduct d ⟨x, y + m⟩) := by
    linarith
  have hgained := mul_le_mul_of_nonneg_right hheavier (mul_nonneg hd.le (sub_nonneg.mpr hsum))
  rw [exactResidual_balance, exactResidual_balance, exactPull, exactPull]
  linarith

end Secants

/-! ### A step that is within a tolerance -/

/-- The curve is straight around the balance `y`, on the scale of a tolerance: the invariant and the
balances are positive, the concentration is in range, and the gap times the balance is large beside
the tolerance. -/
structure StraightBalance (a : AmpGamma) (tol d x y : ℚ) : Prop where
  tol_pos : 0 < tol
  invariant_pos : 0 < d
  other_pos : 0 < x
  pos : 0 < y
  gamma_le : a.gamma.toRat ≤ 1 / 50
  flat : 13 * tol ≤ a.exactGap d ⟨x, y⟩ * y

namespace StraightBalance

variable {tol step : ℚ} (h : a.StraightBalance tol d x y)
include h

theorem balances : ∀ side, 0 ≤ (⟨x, y⟩ : Pair ℚ).get side
  | .base => h.other_pos.le
  | .quote => h.pos.le

theorem product_pos : 0 < exactProduct d ⟨x, y⟩ :=
  exactProduct_pos h.invariant_pos h.other_pos h.pos

theorem gap_pos : 0 < a.exactGap d ⟨x, y⟩ := by
  have htol := h.tol_pos
  exact (mul_pos_iff_of_pos_right h.pos).mp (lt_of_lt_of_le (by linarith) h.flat)

/-- The gap is positive, so `K₀` is not far above one. -/
theorem product_le : exactProduct d ⟨x, y⟩ ≤ 51 / 50 := by
  have hgap := h.gap_pos
  have hgamma := h.gamma_le
  unfold exactGap at hgap
  linarith

theorem gap_le : a.exactGap d ⟨x, y⟩ ≤ 51 / 50 := by
  have hproduct := h.product_pos
  have hgamma := h.gamma_le
  unfold exactGap
  linarith

/-- The balance is large beside the tolerance as well. -/
theorem tol_le : 12 * tol ≤ y := by
  have hflat := h.flat
  have hscaled := mul_le_mul_of_nonneg_right h.gap_le h.pos.le
  linarith [h.tol_pos]

theorem lift_nonneg : 0 ≤ a.exactLift d x y :=
  exactLift_nonneg h.invariant_pos h.other_pos h.pos h.gap_pos

theorem pull_nonneg : 0 ≤ a.exactPull d ⟨x, y⟩ :=
  exactPull_nonneg h.invariant_pos.le h.balances

theorem tilt_pos : 0 < a.balanceTilt d x y := by
  have hlift := mul_nonneg h.lift_nonneg h.invariant_pos.le
  have hfirst := mul_nonneg hlift (abs_nonneg (x + y - d))
  have hpull := h.pull_nonneg
  have hother := h.other_pos
  unfold balanceTilt
  linarith

/-- Within the tolerance the first term of the derivative changes the coefficient of the sum by a
sixth at most. -/
theorem tol_mul_lift_le : tol * (a.exactLift d x y * d) ≤ 4 / 25 * a.exactPull d ⟨x, y⟩ := by
  have hgap := h.gap_pos
  have hy := h.pos
  have hpull := h.pull_nonneg
  have hrate : tol * (a.gamma.toRat + 1 + exactProduct d ⟨x, y⟩) ≤
      4 / 25 * (a.exactGap d ⟨x, y⟩ * y) := by
    have hgrowth : a.gamma.toRat + 1 + exactProduct d ⟨x, y⟩ ≤ 51 / 25 := by
      linarith [h.gamma_le, h.product_le]
    have hscaled := mul_le_mul_of_nonneg_left hgrowth h.tol_pos.le
    linarith [h.flat, h.tol_pos]
  have hexpand : tol * (a.exactLift d x y * d) = a.exactPull d ⟨x, y⟩ *
      (tol * (a.gamma.toRat + 1 + exactProduct d ⟨x, y⟩)) / (a.exactGap d ⟨x, y⟩ * y) := by
    unfold exactLift exactPull
    ring
  rw [hexpand, div_le_iff₀ (by positivity)]
  linarith [mul_le_mul_of_nonneg_left hrate hpull]

/-- The derivative is at most what its terms come to. -/
theorem abs_slope_le : |a.balanceSlope d x y| ≤ a.balanceTilt d x y := by
  have hlift := mul_nonneg h.lift_nonneg h.invariant_pos.le
  have hback := mul_le_mul_of_nonneg_left (neg_abs_le (x + y - d)) hlift
  have hahead := mul_le_mul_of_nonneg_left (le_abs_self (x + y - d)) hlift
  have hpull := h.pull_nonneg
  have hother := h.other_pos
  rw [balanceSlope, balanceTilt, abs_le]
  constructor
  · linarith
  · linarith

/-- A step within the tolerance that follows the tangent leads to where `F` is not positive a
tolerance before. -/
theorem residual_nonpos (hstep : |step| ≤ tol)
    (htangent : |a.exactResidual d ⟨x, y⟩ + a.balanceSlope d x y * step| ≤
      tol / 20 * a.balanceTilt d x y) :
    a.exactResidual d ⟨x, y + step - tol⟩ ≤ 0 := by
  obtain ⟨hback, hahead⟩ := abs_le.mp hstep
  have htol := h.tol_pos
  have hlarge := h.tol_le
  rw [show y + step - tol = y - (tol - step) by ring]
  rcases le_or_gt (x + y - (tol - step)) d with hsum | hsum
  · refine exactResidual_nonpos h.invariant_pos (fun side ↦ ?_) ?_
    · cases side with
      | base => exact h.other_pos.le
      | quote => show 0 ≤ y - (tol - step); linarith
    · show x + (y - (tol - step)) ≤ d
      linarith
  have hflat : exactProduct d ⟨x, y⟩ * (tol - step) ≤ a.exactGap d ⟨x, y⟩ * y / 6 := by
    have hscaled := mul_le_mul h.product_le (by linarith : tol - step ≤ 2 * tol) (by linarith)
      (by norm_num)
    linarith [h.flat]
  have hsecant := secant_left_balance h.invariant_pos h.other_pos h.pos (by linarith) h.gap_pos
    (by linarith) hflat hsum.le
  rw [balanceSlope_eq (by linarith)] at htangent
  have hhere := (abs_le.mp htangent).2
  have hmoved := mul_le_mul_of_nonneg_right hback h.tilt_pos.le
  have hrest := mul_nonneg htol.le h.tilt_pos.le
  linarith

/-- A step within the tolerance that follows the tangent, from where the invariant is not above the
sum of the balances, leads to where `F` is not negative a tolerance further on. -/
theorem residual_nonneg_of_le (hstep : |step| ≤ tol) (hsum : d ≤ x + y)
    (htangent : |a.exactResidual d ⟨x, y⟩ + a.balanceSlope d x y * step| ≤
      tol / 20 * a.balanceTilt d x y)
    (heven : exactProduct d ⟨x, y + (step + tol)⟩ < 1) :
    0 ≤ a.exactResidual d ⟨x, y + (step + tol)⟩ := by
  have hback := (abs_le.mp hstep).1
  have hsecant := secant_right_balance h.invariant_pos h.other_pos h.pos
    (by linarith : 0 ≤ step + tol) h.gap_pos (exactGap_pos_of_lt_one heven) hsum
  rw [balanceSlope_eq hsum] at htangent
  have hhere := (abs_le.mp htangent).1
  have hrest := mul_nonneg h.tol_pos.le h.tilt_pos.le
  linarith

/-- An iterate below the invariant from which the tangent leads no further than the tolerance is
itself no further below it than twice the tolerance, or little more. -/
theorem sub_sum_le (hstep : |step| ≤ tol) (hsum : x + y < d)
    (htangent : |a.exactResidual d ⟨x, y⟩ + a.balanceSlope d x y * step| ≤
      tol / 20 * a.balanceTilt d x y) :
    d - (x + y) ≤ 21 / 10 * tol := by
  obtain ⟨htilt, hslope⟩ := balanceTilt_and_slope_of_sum_lt (a := a) hsum
  obtain ⟨hback, hahead⟩ := abs_le.mp hstep
  have hpull := h.pull_nonneg
  have hlift := mul_nonneg h.lift_nonneg h.invariant_pos.le
  have hturned := h.tol_mul_lift_le
  have hdeep := neg_exactResidual a d x y
  have hhere := (abs_le.mp htangent).1
  have hx := h.other_pos
  have hy := h.pos
  rw [htilt, hslope] at hhere
  generalize a.exactLift d x y * d = l at *
  generalize a.exactPull d ⟨x, y⟩ = p at *
  generalize a.exactResidual d ⟨x, y⟩ = f at *
  set w := d - (x + y) with hw
  have hwPos : 0 < w := sub_pos.mpr hsum
  have hcapital : 0 < p + x := by linarith
  have hup := mul_le_mul_of_nonneg_right hahead hcapital.le
  have hdown := mul_le_mul_of_nonneg_right hback (mul_nonneg hwPos.le hlift)
  have hturned' := mul_le_mul_of_nonneg_left hturned hwPos.le
  have hsumPart : w * x / 2 ≤ w * (d + (x + y)) / 4 := by
    have hscaled := mul_le_mul_of_nonneg_left (by linarith : 2 * x ≤ d + (x + y)) hwPos.le
    linarith
  have hpullPart := mul_nonneg hwPos.le hpull
  refine le_of_mul_le_mul_right ?_ hcapital
  linarith [sq_nonneg (x - y)]

/-- So the term of the derivative that has turned its sign is small beside the coefficient of the
sum. -/
theorem turned_le (hstep : |step| ≤ tol) (hsum : x + y < d)
    (htangent : |a.exactResidual d ⟨x, y⟩ + a.balanceSlope d x y * step| ≤
      tol / 20 * a.balanceTilt d x y) :
    (d - (x + y)) * (a.exactLift d x y * d) ≤ 42 / 125 * a.exactPull d ⟨x, y⟩ := by
  have hlift := mul_nonneg h.lift_nonneg h.invariant_pos.le
  have hscaled := mul_le_mul_of_nonneg_right (h.sub_sum_le hstep hsum htangent) hlift
  linarith [h.tol_mul_lift_le]

/-- From below the invariant, a step within the tolerance that follows the tangent leads to where
the sum of the balances reaches the invariant a tolerance further on: further below it `F` would be
more negative at the iterate than the tangent allows. -/
theorem le_sum_of_sum_lt (hstep : |step| ≤ tol) (hsum : x + y < d)
    (htangent : |a.exactResidual d ⟨x, y⟩ + a.balanceSlope d x y * step| ≤
      tol / 20 * a.balanceTilt d x y) :
    d ≤ x + (y + (step + tol)) := by
  obtain ⟨htilt, hslope⟩ := balanceTilt_and_slope_of_sum_lt (a := a) hsum
  obtain ⟨hback, hahead⟩ := abs_le.mp hstep
  have htol := h.tol_pos
  have hx := h.other_pos
  have hy := h.tol_le
  have hpull := h.pull_nonneg
  have hturned := h.turned_le hstep hsum htangent
  have hturnedNonneg :=
    mul_nonneg (sub_pos.mpr hsum).le (mul_nonneg h.lift_nonneg h.invariant_pos.le)
  have hhere := (abs_le.mp htangent).1
  have hdeep := neg_exactResidual a d x y
  rw [htilt, hslope] at hhere
  by_contra hreach
  rw [not_le] at hreach
  have hover : step + tol ≤ d - (x + y) := by linarith
  have hpullPart := mul_le_mul_of_nonneg_right hover hpull
  have hsumPart : (step + tol) * (x + y) / 2 ≤ (d - (x + y)) * (d + (x + y)) / 4 := by
    have hscaled := mul_le_mul hover (by linarith : 2 * (x + y) ≤ d + (x + y))
      (by linarith) (sub_pos.mpr hsum).le
    linarith
  generalize (d - (x + y)) * (a.exactLift d x y * d) = q at *
  have hcross := mul_le_mul_of_nonneg_right hback hturnedNonneg
  have hsmall := mul_le_mul_of_nonneg_left hturned htol.le
  have hrest := mul_nonneg htol.le hpull
  -- A part for how uneven the balances are makes up for what is left.
  have huneven : 0 < (x - y) ^ 2 / 4 + (x - y) * (9 / 20 * tol - step / 2) +
      19 / 20 * (tol * y) := by
    have hside : (9 / 20 * tol - step / 2) ^ 2 ≤ (19 / 20 * tol) ^ 2 :=
      sq_le_sq' (by linarith) (by linarith)
    have hsize := mul_le_mul_of_nonneg_left hy htol.le
    have hsq : 0 < tol * tol := mul_pos htol htol
    linarith [sq_nonneg ((x - y) / 2 + (9 / 20 * tol - step / 2))]
  linarith

/-- As `residual_nonneg_of_le`, from below the invariant. -/
theorem residual_nonneg_of_sum_lt (hstep : |step| ≤ tol) (hsum : x + y < d)
    (htangent : |a.exactResidual d ⟨x, y⟩ + a.balanceSlope d x y * step| ≤
      tol / 20 * a.balanceTilt d x y)
    (heven : exactProduct d ⟨x, y + (step + tol)⟩ < 1) :
    0 ≤ a.exactResidual d ⟨x, y + (step + tol)⟩ := by
  obtain ⟨htilt, hslope⟩ := balanceTilt_and_slope_of_sum_lt (a := a) hsum
  have hback := (abs_le.mp hstep).1
  have hsecant := secant_right_of_sum_lt h.invariant_pos h.other_pos h.pos
    (by linarith : 0 ≤ step + tol) h.gap_pos (exactGap_pos_of_lt_one heven)
    (h.le_sum_of_sum_lt hstep hsum htangent)
  have hturned := mul_le_mul_of_nonneg_left (h.turned_le hstep hsum htangent) h.tol_pos.le
  have hcross := mul_le_mul_of_nonneg_right hback
    (mul_nonneg (sub_pos.mpr hsum).le (mul_nonneg h.lift_nonneg h.invariant_pos.le))
  have hpull := mul_nonneg h.tol_pos.le h.pull_nonneg
  have hother := mul_nonneg h.tol_pos.le h.other_pos.le
  have hhere := (abs_le.mp htangent).1
  rw [htilt, hslope] at hhere
  linarith

/-- A step within the tolerance that follows the tangent leads to within the tolerance of the root:
`F` is not positive a tolerance before, and not negative a tolerance further on. -/
theorem straddles (hstep : |step| ≤ tol)
    (htangent : |a.exactResidual d ⟨x, y⟩ + a.balanceSlope d x y * step| ≤
      tol / 20 * a.balanceTilt d x y) :
    a.exactResidual d ⟨x, y + step - tol⟩ ≤ 0 ∧ 0 ≤ a.exactResidual d ⟨x, y + step + tol⟩ := by
  refine ⟨h.residual_nonpos hstep htangent, ?_⟩
  rw [add_assoc]
  by_cases heven : 1 ≤ exactProduct d ⟨x, y + (step + tol)⟩
  · refine supports_of_one_le h.invariant_pos (fun side ↦ ?_) heven
    have hback := (abs_le.mp hstep).1
    have hy := h.pos
    cases side with
    | base => exact h.other_pos.le
    | quote =>
      show 0 ≤ y + (step + tol)
      linarith
  rw [not_le] at heven
  rcases le_or_gt d (x + y) with hsum | hsum
  · exact h.residual_nonneg_of_le hstep hsum htangent heven
  · exact h.residual_nonneg_of_sum_lt hstep hsum htangent heven

end StraightBalance

end AmpGamma

end ConcentratedPool
