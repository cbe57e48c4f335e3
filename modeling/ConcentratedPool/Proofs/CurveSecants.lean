import ConcentratedPool.Proofs.ExactCurve

/-!
# Tangents and secants of the curve

A step of Newton's method follows the tangent of `F`. It says how far away the root is only if the
curve is straight enough around the iterate. The curve bends on the scale on which the gap
`γ + 1 - K₀` changes, which is the gap times the invariant: over a small part of that length, every
secant of `F` has more than half the slope of the tangent (`AmpGamma.secant_right`,
`AmpGamma.secant_left`).

So where the gap times the iterate is some multiple of a tolerance, and a step that is within the
tolerance has led from the iterate to the next one, up to an error that is small beside the
tolerance, the root of the curve is within the tolerance of that next one
(`AmpGamma.Straight.straddles`).
-/

set_option autoImplicit false
set_option relaxedAutoImplicit false

namespace ConcentratedPool

namespace AmpGamma

variable (a : AmpGamma)

/-- The gap `γ + 1 - K₀`. -/
def exactGap (d : ℚ) (x : Pair ℚ) : ℚ := a.gamma.toRat + 1 - exactProduct d x

/-- The coefficient `K D` with which the sum of the balances enters `F`. -/
def exactPull (d : ℚ) (x : Pair ℚ) : ℚ := a.exactWeight (exactProduct d x) * d

/-- The relative rate at which the coefficient `K D` falls where the invariant grows. -/
def exactDecay (d : ℚ) (x : Pair ℚ) : ℚ := 1 + 4 * exactProduct d x / a.exactGap d x

/-- The derivative of `F` by the invariant. -/
def exactSlope (d : ℚ) (x : Pair ℚ) : ℚ :=
  let weight := a.exactWeight (exactProduct d x)
  let fall := -(2 * weight * (a.gamma.toRat + 1 + exactProduct d x) / a.exactGap d x)
  (fall + weight) * (x.base + x.quote) - (fall + 2 * weight) * d - d / 2

/-- The terms of the derivative, each with the sign that it has where the invariant is not above the
sum of the balances. -/
def exactTilt (d : ℚ) (x : Pair ℚ) : ℚ :=
  a.exactWeight (exactProduct d x) * (|x.base + x.quote - d| * a.exactDecay d x + d) + d / 2

variable {a} {d ρ : ℚ} {x : Pair ℚ}

/-! ### The terms of `F` -/

theorem exactResidual_eq (a : AmpGamma) (d : ℚ) (x : Pair ℚ) :
    a.exactResidual d x =
      a.exactPull d x * (x.base + x.quote - d) + x.base * x.quote - d ^ 2 / 4 := by
  unfold exactResidual exactPull
  ring

/-- The derivative falls with the invariant, as far as the sum of the balances. -/
theorem neg_exactSlope (hgap : a.exactGap d x ≠ 0) :
    -a.exactSlope d x = a.exactWeight (exactProduct d x) *
      ((x.base + x.quote - d) * a.exactDecay d x + d) + d / 2 := by
  have hsum : a.gamma.toRat + 1 + exactProduct d x = a.exactGap d x + 2 * exactProduct d x := by
    unfold exactGap
    ring
  unfold exactSlope exactDecay
  simp only [hsum]
  field_simp
  ring

/-- `K₀` at another invariant. -/
theorem exactProduct_mul (d ρ : ℚ) (x : Pair ℚ) :
    exactProduct (ρ * d) x = exactProduct d x / ρ ^ 2 := by
  rw [exactProduct, exactProduct, div_div, mul_pow, mul_comm (d ^ 2)]

/-- The gap at another invariant. -/
theorem exactGap_mul (hρ : ρ ≠ 0) :
    (a.exactGap (ρ * d) x - a.exactGap d x) * ρ ^ 2 = exactProduct d x * (ρ ^ 2 - 1) := by
  unfold exactGap
  rw [exactProduct_mul]
  field_simp
  ring

/-- The coefficient of the sum is inversely proportional to the invariant and the square of the
gap. -/
theorem exactPull_mul (hρ : ρ ≠ 0) (hgap : a.exactGap d x ≠ 0) (hgap' : a.exactGap (ρ * d) x ≠ 0) :
    a.exactPull (ρ * d) x * (ρ * a.exactGap (ρ * d) x ^ 2) =
      a.exactPull d x * a.exactGap d x ^ 2 := by
  have hnext : a.exactPull (ρ * d) x * a.exactGap (ρ * d) x ^ 2 =
      a.amp.toRat * exactProduct (ρ * d) x * a.gamma.toRat ^ 2 * (ρ * d) := by
    unfold exactPull exactWeight
    change _ / a.exactGap (ρ * d) x ^ 2 * _ * _ = _
    field_simp
  have hhere : a.exactPull d x * a.exactGap d x ^ 2 =
      a.amp.toRat * exactProduct d x * a.gamma.toRat ^ 2 * d := by
    unfold exactPull exactWeight
    change _ / a.exactGap d x ^ 2 * _ * _ = _
    field_simp
  rw [mul_left_comm, hnext, hhere, exactProduct_mul]
  field_simp

/-! ### How fast the gap changes -/

section Gap

variable {k gap gap' : ℚ}

/-- Where the gap widens by no more than a third, so that the invariant has grown by no more than a
small part, the coefficient of the sum keeps more than half, and loses more than half of what its
rate says. -/
theorem pull_falls (hk : 0 ≤ k) (hgap : 0 < gap) (hρ : 1 ≤ ρ) (hnear : ρ ≤ 201 / 200)
    (hflat : k * (ρ - 1) ≤ 4 / 25 * gap) (hnext : (gap' - gap) * ρ ^ 2 = k * (ρ ^ 2 - 1)) :
    11 / 20 * (ρ * gap' ^ 2) ≤ gap ^ 2 ∧
      11 / 20 * ((1 + 4 * k / gap) * (ρ - 1)) * (ρ * gap' ^ 2) ≤ ρ * gap' ^ 2 - gap ^ 2 := by
  have hρPos : 0 < ρ := by linarith
  have hsq : 1 ≤ ρ ^ 2 := one_le_pow₀ hρ
  have hsq' : ρ ^ 2 ≤ 102 / 100 := by nlinarith
  have hwide : gap' - gap ≤ 8 / 25 * gap := by
    refine le_of_mul_le_mul_right ?_ (by positivity : 0 < ρ ^ 2)
    calc (gap' - gap) * ρ ^ 2 = k * (ρ - 1) * (ρ + 1) := by rw [hnext]; ring
      _ ≤ 4 / 25 * gap * (2 * ρ ^ 2) := by
          refine mul_le_mul hflat ?_ (by linarith) (by positivity)
          nlinarith
      _ = 8 / 25 * gap * ρ ^ 2 := by ring
  have hgrown : gap ≤ gap' := by
    have hnonneg : 0 ≤ (gap' - gap) * ρ ^ 2 := by
      rw [hnext]
      exact mul_nonneg hk (by linarith)
    have hdiff : 0 ≤ gap' - gap := nonneg_of_mul_nonneg_left hnonneg (by positivity)
    linarith
  have hgap'Sq : gap' ^ 2 ≤ (33 / 25 * gap) ^ 2 :=
    pow_le_pow_left₀ (by linarith) (by linarith) 2
  constructor
  · calc 11 / 20 * (ρ * gap' ^ 2) ≤ 11 / 20 * (201 / 200 * (33 / 25 * gap) ^ 2) := by gcongr
      _ ≤ gap ^ 2 := by linarith [sq_nonneg gap]
  · -- The rate is that of the tangent, and the curve has left the tangent by less than a half.
    have hrate : 0 ≤ (1 + 4 * k / gap) * (ρ - 1) :=
      mul_nonneg (by positivity) (by linarith)
    have htangent : (1 + 4 * k / gap) * (ρ - 1) * gap ^ 2 ≤ ρ * (ρ * gap' ^ 2 - gap ^ 2) := by
      have hexpand : (1 + 4 * k / gap) * (ρ - 1) * gap ^ 2 =
          (ρ - 1) * gap ^ 2 + 4 * k * (ρ - 1) * gap := by field_simp
      have hcross : 4 * k * (ρ - 1) * gap ≤ 2 * gap * ((gap' - gap) * ρ ^ 2) := by
        rw [hnext]
        linarith [mul_nonneg (mul_nonneg hk hgap.le) (sq_nonneg (ρ - 1))]
      rw [hexpand]
      linarith [mul_nonneg (sq_nonneg ρ) (sq_nonneg (gap' - gap)),
        mul_nonneg (sq_nonneg (ρ - 1)) (sq_nonneg gap),
        mul_nonneg (by linarith : 0 ≤ ρ - 1) (sq_nonneg gap)]
    have hloss : 11 / 20 * (ρ * (ρ * gap' ^ 2)) ≤ gap ^ 2 := by
      calc 11 / 20 * (ρ * (ρ * gap' ^ 2)) = 11 / 20 * (ρ ^ 2 * gap' ^ 2) := by ring
        _ ≤ 11 / 20 * (102 / 100 * (33 / 25 * gap) ^ 2) := by gcongr
        _ ≤ gap ^ 2 := by linarith [sq_nonneg gap]
    refine le_of_mul_le_mul_left ?_ hρPos
    calc ρ * (11 / 20 * ((1 + 4 * k / gap) * (ρ - 1)) * (ρ * gap' ^ 2))
        = (1 + 4 * k / gap) * (ρ - 1) * (11 / 20 * (ρ * (ρ * gap' ^ 2))) := by ring
      _ ≤ (1 + 4 * k / gap) * (ρ - 1) * gap ^ 2 := mul_le_mul_of_nonneg_left hloss hrate
      _ ≤ ρ * (ρ * gap' ^ 2 - gap ^ 2) := htangent

/-- Where the invariant shrinks, the coefficient of the sum grows by at least what its rate says. -/
theorem pull_grows (hk : 0 ≤ k) (hgap : 0 < gap) (hgap' : 0 < gap') (hρ : 0 < ρ) (hone : ρ ≤ 1)
    (hnext : (gap' - gap) * ρ ^ 2 = k * (ρ ^ 2 - 1)) :
    (1 + (1 + 4 * k / gap) * (1 - ρ)) * (ρ * gap' ^ 2) ≤ gap ^ 2 := by
  set e := 1 - ρ with he
  have heNonneg : 0 ≤ e := by linarith
  have hfNonneg : 0 ≤ 2 * k / gap * e := by positivity
  have hfirst : (1 + e) * ρ ≤ 1 := by nlinarith
  have hsecond : (1 + 2 * k / gap * e) * gap' ≤ gap := by
    -- The gap shrinks by twice `k` times the step at least.
    have hshrinks : 2 * k * e ≤ gap - gap' := by
      have hsq : ρ ^ 2 ≤ 1 := pow_le_one₀ hρ.le hone
      refine le_of_mul_le_mul_right ?_ (by positivity : 0 < ρ ^ 2)
      have hpoly : 2 * e * ρ ^ 2 ≤ 1 - ρ ^ 2 := by nlinarith
      calc 2 * k * e * ρ ^ 2 = k * (2 * e * ρ ^ 2) := by ring
        _ ≤ k * (1 - ρ ^ 2) := mul_le_mul_of_nonneg_left hpoly hk
        _ = (gap - gap') * ρ ^ 2 := by linarith
    have hle : gap' ≤ gap := by
      have hnonneg : 0 ≤ 2 * k * e := by positivity
      linarith
    calc (1 + 2 * k / gap * e) * gap' = gap' + 2 * k / gap * e * gap' := by ring
      _ ≤ gap' + 2 * k / gap * e * gap := by gcongr
      _ = gap' + 2 * k * e := by field_simp
      _ ≤ gap := by linarith
  have hsum : 1 + (1 + 4 * k / gap) * e ≤ (1 + e) * (1 + 2 * k / gap * e) ^ 2 := by
    have hsplit : 4 * k / gap * e = 2 * (2 * k / gap * e) := by ring
    nlinarith [mul_nonneg heNonneg hfNonneg, mul_nonneg heNonneg (sq_nonneg (2 * k / gap * e))]
  calc (1 + (1 + 4 * k / gap) * e) * (ρ * gap' ^ 2)
      ≤ (1 + e) * (1 + 2 * k / gap * e) ^ 2 * (ρ * gap' ^ 2) :=
        mul_le_mul_of_nonneg_right hsum (by positivity)
    _ = (1 + e) * ρ * ((1 + 2 * k / gap * e) * gap') ^ 2 := by ring
    _ ≤ 1 * gap ^ 2 := by
        refine mul_le_mul hfirst (pow_le_pow_left₀ (by positivity) hsecond 2) (by positivity)
          zero_le_one
    _ = gap ^ 2 := one_mul _

end Gap

/-! ### Secants -/

section Secants

theorem exactDecay_nonneg (hx : ∀ side, 0 ≤ x.get side) (hgap : 0 < a.exactGap d x) :
    0 ≤ a.exactDecay d x := by
  have hk := exactProduct_nonneg hx d
  unfold exactDecay
  positivity

theorem exactPull_nonneg (hd : 0 ≤ d) (hx : ∀ side, 0 ≤ x.get side) : 0 ≤ a.exactPull d x :=
  mul_nonneg (a.exactWeight_nonneg (exactProduct_nonneg hx d)) hd

/-- To the right, the coefficient of the sum keeps more than half and loses more than half of what
its rate says. -/
theorem exactPull_right (hd : 0 < d) (hx : ∀ side, 0 ≤ x.get side) (hgap : 0 < a.exactGap d x)
    (hρ : 1 ≤ ρ) (hnear : ρ ≤ 201 / 200)
    (hflat : exactProduct d x * (ρ - 1) ≤ 4 / 25 * a.exactGap d x) :
    11 / 20 * a.exactPull d x ≤ a.exactPull (ρ * d) x ∧
      11 / 20 * (a.exactDecay d x * (ρ - 1) * a.exactPull d x) ≤
        a.exactPull d x - a.exactPull (ρ * d) x := by
  have hk := exactProduct_nonneg hx d
  have hpull : 0 ≤ a.exactPull d x := exactPull_nonneg hd.le hx
  have hρ0 : ρ ≠ 0 := by positivity
  have hnext := a.exactGap_mul (d := d) (x := x) hρ0
  have hgap' : 0 < a.exactGap (ρ * d) x := by
    have hnonneg : 0 ≤ (a.exactGap (ρ * d) x - a.exactGap d x) * ρ ^ 2 := by
      rw [hnext]
      exact mul_nonneg hk (by linarith [one_le_pow₀ (n := 2) hρ])
    have hdiff := nonneg_of_mul_nonneg_left hnonneg (by positivity)
    linarith
  have hsame := exactPull_mul hρ0 hgap.ne' hgap'.ne'
  obtain ⟨hkeeps, hloses⟩ := pull_falls hk hgap hρ hnear hflat hnext
  have hpos : 0 < ρ * a.exactGap (ρ * d) x ^ 2 := by positivity
  constructor
  · refine le_of_mul_le_mul_right ?_ hpos
    rw [hsame]
    linarith [mul_le_mul_of_nonneg_left hkeeps hpull]
  · refine le_of_mul_le_mul_right ?_ hpos
    rw [sub_mul, hsame]
    unfold exactDecay
    linarith [mul_le_mul_of_nonneg_left hloses hpull]

/-- To the left, the coefficient of the sum gains what its rate says. -/
theorem exactPull_left (hd : 0 < d) (hx : ∀ side, 0 ≤ x.get side) (hgap : 0 < a.exactGap d x)
    (hgap' : 0 < a.exactGap (ρ * d) x) (hρ : 0 < ρ) (hone : ρ ≤ 1) :
    (1 + a.exactDecay d x * (1 - ρ)) * a.exactPull d x ≤ a.exactPull (ρ * d) x := by
  have hk := exactProduct_nonneg hx d
  have hpull : 0 ≤ a.exactPull d x := exactPull_nonneg hd.le hx
  have hgrows := pull_grows hk hgap hgap' hρ hone (exactGap_mul hρ.ne')
  have hpos : 0 < ρ * a.exactGap (ρ * d) x ^ 2 := by positivity
  refine le_of_mul_le_mul_right ?_ hpos
  rw [exactPull_mul hρ.ne' hgap.ne' hgap'.ne']
  unfold exactDecay
  linarith [mul_le_mul_of_nonneg_left hgrows hpull]

/-- The terms of the derivative where the invariant is not above the sum of the balances. -/
theorem exactTilt_of_le (hsum : d ≤ x.base + x.quote) :
    a.exactTilt d x = a.exactWeight (exactProduct d x) *
      ((x.base + x.quote - d) * a.exactDecay d x + d) + d / 2 := by
  rw [exactTilt, abs_of_nonneg (sub_nonneg.mpr hsum)]

/-- To the right, as far as the sum of the balances, `F` falls by more than half of what the tangent
does. -/
theorem secant_right (hd : 0 < d) (hx : ∀ side, 0 ≤ x.get side) (hgap : 0 < a.exactGap d x)
    (hρ : 1 ≤ ρ) (hnear : ρ ≤ 201 / 200)
    (hflat : exactProduct d x * (ρ - 1) ≤ 4 / 25 * a.exactGap d x)
    (hsum : ρ * d ≤ x.base + x.quote) :
    11 / 20 * (d * (ρ - 1) * a.exactTilt d x) ≤
      a.exactResidual d x - a.exactResidual (ρ * d) x := by
  obtain ⟨hkeeps, hloses⟩ := exactPull_right hd hx hgap hρ hnear hflat
  have hless : d ≤ x.base + x.quote := le_trans (by nlinarith) hsum
  rw [exactTilt_of_le hless, exactResidual_eq, exactResidual_eq]
  have hfirst := mul_le_mul_of_nonneg_left hloses (sub_nonneg.mpr hless)
  have hsecond := mul_le_mul_of_nonneg_left hkeeps (mul_nonneg hd.le (sub_nonneg.mpr hρ))
  have hthird : 11 / 40 * (d ^ 2 * (ρ - 1)) ≤ (ρ * d) ^ 2 / 4 - d ^ 2 / 4 := by
    linarith [mul_nonneg (sq_nonneg d) (sub_nonneg.mpr hρ),
      mul_nonneg (sq_nonneg d) (sq_nonneg (ρ - 1))]
  have hpull : a.exactPull d x = a.exactWeight (exactProduct d x) * d := rfl
  rw [hpull] at hfirst hsecond ⊢
  linarith

/-- To the left, the coefficient of the sum does not shrink. -/
theorem exactPull_le_left (hd : 0 < d) (hx : ∀ side, 0 ≤ x.get side) (hgap : 0 < a.exactGap d x)
    (hgap' : 0 < a.exactGap (ρ * d) x) (hρ : 0 < ρ) (hone : ρ ≤ 1) :
    a.exactPull d x ≤ a.exactPull (ρ * d) x := by
  have hgain : 0 ≤ a.exactDecay d x * (1 - ρ) * a.exactPull d x :=
    mul_nonneg (mul_nonneg (exactDecay_nonneg hx hgap) (sub_nonneg.mpr hone))
      (exactPull_nonneg hd.le hx)
  have hgrows := exactPull_left hd hx hgap hgap' hρ hone
  linarith

/-- To the left, the square of the invariant falls by almost as much as its tangent does. -/
theorem sq_sub_sq_ge (d : ℚ) (hρ : 199 / 200 ≤ ρ) (hone : ρ ≤ 1) :
    11 / 40 * (d ^ 2 * (1 - ρ)) ≤ d ^ 2 / 4 - (ρ * d) ^ 2 / 4 := by
  have hfall : 0 ≤ d ^ 2 * (1 - ρ) := mul_nonneg (sq_nonneg d) (sub_nonneg.mpr hone)
  nlinarith

/-- To the left, `F` grows by more than half of what the tangent does. -/
theorem secant_left (hd : 0 < d) (hx : ∀ side, 0 ≤ x.get side) (hgap : 0 < a.exactGap d x)
    (hgap' : 0 < a.exactGap (ρ * d) x) (hρ : 199 / 200 ≤ ρ) (hone : ρ ≤ 1)
    (hsum : d ≤ x.base + x.quote) :
    11 / 20 * (d * (1 - ρ) * a.exactTilt d x) ≤
      a.exactResidual (ρ * d) x - a.exactResidual d x := by
  have hρPos : 0 < ρ := by linarith
  have hpull : 0 ≤ a.exactPull d x := exactPull_nonneg hd.le hx
  have hdecay : 0 ≤ a.exactDecay d x := exactDecay_nonneg hx hgap
  have hgrows := mul_le_mul_of_nonneg_left (exactPull_left hd hx hgap hgap' hρPos hone)
    (sub_nonneg.mpr hsum)
  have hkeeps := mul_le_mul_of_nonneg_left (exactPull_le_left hd hx hgap hgap' hρPos hone)
    (mul_nonneg hd.le (sub_nonneg.mpr hone))
  have hsquare := sq_sub_sq_ge d hρ hone
  have hgain := mul_nonneg (mul_nonneg (sub_nonneg.mpr hsum)
    (mul_nonneg hdecay (sub_nonneg.mpr hone))) hpull
  have hkept := mul_nonneg (mul_nonneg hd.le (sub_nonneg.mpr hone)) hpull
  have heq : a.exactPull d x = a.exactWeight (exactProduct d x) * d := rfl
  rw [exactTilt_of_le hsum, exactResidual_eq, exactResidual_eq]
  rw [heq] at hgrows hkeeps hgain hkept ⊢
  linarith

/-- As `secant_left`, from above the sum of the balances to below it. -/
theorem secant_left_of_sum_lt (hd : 0 < d) (hx : ∀ side, 0 ≤ x.get side)
    (hgap : 0 < a.exactGap d x) (hgap' : 0 < a.exactGap (ρ * d) x) (hρ : 199 / 200 ≤ ρ)
    (hone : ρ ≤ 1) (hsum : ρ * d ≤ x.base + x.quote) :
    11 / 20 * (d * (1 - ρ) * (a.exactPull d x + d / 2)) ≤
      a.exactResidual (ρ * d) x - a.exactResidual d x := by
  have hpull : 0 ≤ a.exactPull d x := exactPull_nonneg hd.le hx
  have hkeeps := mul_le_mul_of_nonneg_right
    (exactPull_le_left hd hx hgap hgap' (by linarith) hone) (sub_nonneg.mpr hsum)
  have hsquare := sq_sub_sq_ge d hρ hone
  have hkept := mul_nonneg (mul_nonneg hd.le (sub_nonneg.mpr hone)) hpull
  rw [exactResidual_eq, exactResidual_eq]
  linarith

/-- Above the sum of the balances `F` is negative, by what the coefficient of the sum and the square
of the invariant come to. -/
theorem exactResidual_le (d : ℚ) (x : Pair ℚ) :
    a.exactResidual d x ≤ -((d - (x.base + x.quote)) *
      (a.exactPull d x + (d + (x.base + x.quote)) / 4)) := by
  rw [exactResidual_eq]
  linarith [sq_nonneg (x.base - x.quote)]

/-- From the sum of the balances on, `F` is not positive. -/
theorem exactResidual_nonpos (hd : 0 < d) (hx : ∀ side, 0 ≤ x.get side)
    (hsum : x.base + x.quote ≤ d) : a.exactResidual d x ≤ 0 := by
  have hbase : 0 ≤ x.base := hx .base
  have hquote : 0 ≤ x.quote := hx .quote
  have hpull : 0 ≤ a.exactPull d x := exactPull_nonneg hd.le hx
  refine (exactResidual_le d x).trans (neg_nonpos.mpr (mul_nonneg (sub_nonneg.mpr hsum) ?_))
  positivity

end Secants

/-! ### A step that is within a tolerance -/

/-- The curve is straight around `d`, on the scale of a tolerance: the balances are not negative,
the concentration is in range, and both `d` and `d` times the gap are large beside the tolerance. -/
structure Straight (a : AmpGamma) (tol d : ℚ) (x : Pair ℚ) : Prop where
  tol_pos : 0 < tol
  balances : ∀ side, 0 ≤ x.get side
  gamma_le : a.gamma.toRat ≤ 1 / 50
  small : 400 * tol ≤ d
  flat : 13 * tol ≤ a.exactGap d x * d

section Straight

variable {tol step : ℚ} (h : a.Straight tol d x)
include h

theorem Straight.pos : 0 < d := by
  have htol := h.tol_pos
  have hsmall := h.small
  linarith

theorem Straight.gap_pos : 0 < a.exactGap d x := by
  have htol := h.tol_pos
  exact (mul_pos_iff_of_pos_right h.pos).mp (lt_of_lt_of_le (by linarith) h.flat)

/-- The gap is positive, so `K₀` is not far above one. -/
theorem Straight.product_le : exactProduct d x ≤ 51 / 50 := by
  have hgap := h.gap_pos
  have hgamma := h.gamma_le
  unfold exactGap at hgap
  linarith

/-- Within the tolerance the coefficient of the sum falls by a third at most. -/
theorem Straight.tol_mul_decay_le : tol * a.exactDecay d x ≤ d / 3 := by
  have hgap := h.gap_pos
  have hproduct := mul_le_mul_of_nonneg_left h.product_le h.tol_pos.le
  refine le_of_mul_le_mul_right ?_ hgap
  have hexpand : tol * a.exactDecay d x * a.exactGap d x =
      tol * a.exactGap d x + 4 * (tol * exactProduct d x) := by
    unfold exactDecay
    field_simp
  have hsmall := mul_le_mul_of_nonneg_right h.small hgap.le
  have hflat := h.flat
  have hlength : 0 ≤ d * a.exactGap d x := mul_nonneg h.pos.le hgap.le
  rw [hexpand]
  linarith

/-- The curve is flat enough for a secant to the right, as far as twice the tolerance. -/
theorem Straight.right_flat (hρ : 1 ≤ ρ) (hfar : d * (ρ - 1) ≤ 2 * tol) :
    ρ ≤ 201 / 200 ∧ exactProduct d x * (ρ - 1) ≤ 4 / 25 * a.exactGap d x := by
  have hd := h.pos
  have htol := h.tol_pos
  have hsmall := h.small
  have hflat := h.flat
  constructor
  · refine le_of_mul_le_mul_left ?_ hd
    linarith
  · refine le_of_mul_le_mul_left ?_ hd
    have hproduct := mul_le_mul_of_nonneg_left h.product_le
      (mul_nonneg hd.le (sub_nonneg.mpr hρ))
    linarith

theorem Straight.tilt_nonneg : 0 ≤ a.exactTilt d x := by
  have hd := h.pos
  have hweight := a.exactWeight_nonneg (exactProduct_nonneg h.balances d)
  have hdecay := exactDecay_nonneg h.balances h.gap_pos
  unfold exactTilt
  positivity

/-- The terms of the derivative bound the weight, taken with the distance from the sum of the
balances and over the gap. -/
theorem Straight.weight_mul_le : a.exactWeight (exactProduct d x) * |x.base + x.quote - d| ≤
    a.exactTilt d x * a.exactGap d x := by
  have hd := h.pos
  have hgap := h.gap_pos
  have hgamma := a.gamma.toRat_nonneg
  have hk := exactProduct_nonneg h.balances d
  have hweight := a.exactWeight_nonneg hk
  have hdecay : 1 ≤ a.exactDecay d x * a.exactGap d x := by
    have hexpand : a.exactDecay d x * a.exactGap d x =
        a.exactGap d x + 4 * exactProduct d x := by
      unfold exactDecay
      field_simp
    rw [hexpand]
    unfold exactGap
    linarith
  have hterm := mul_le_mul_of_nonneg_left hdecay
    (mul_nonneg hweight (abs_nonneg (x.base + x.quote - d)))
  have hrest : 0 ≤ (a.exactWeight (exactProduct d x) * d + d / 2) * a.exactGap d x := by positivity
  unfold exactTilt
  linarith

/-- The terms of the derivative bound the coefficient of the sum, and half of the invariant. -/
theorem Straight.pull_add_le : a.exactWeight (exactProduct d x) * d + d / 2 ≤ a.exactTilt d x := by
  have hweight := a.exactWeight_nonneg (exactProduct_nonneg h.balances d)
  have hdecay := exactDecay_nonneg (a := a) h.balances h.gap_pos
  have hterm : 0 ≤ a.exactWeight (exactProduct d x) *
      (|x.base + x.quote - d| * a.exactDecay d x) := by positivity
  unfold exactTilt
  linarith

/-- Where the invariant is not above the sum of the balances, all terms of the derivative are
negative. -/
theorem Straight.slope_eq (hsum : d ≤ x.base + x.quote) :
    a.exactSlope d x = -a.exactTilt d x := by
  rw [exactTilt_of_le hsum, ← neg_exactSlope h.gap_pos.ne', neg_neg]

/-- The derivative is at most what its terms come to. -/
theorem Straight.abs_slope_le : |a.exactSlope d x| ≤ a.exactTilt d x := by
  have hd := h.pos
  have hweight := a.exactWeight_nonneg (exactProduct_nonneg h.balances d)
  have hdecay := exactDecay_nonneg (a := a) h.balances h.gap_pos
  have hfall := mul_nonneg hweight hdecay
  have hback := mul_le_mul_of_nonneg_right (neg_abs_le (x.base + x.quote - d)) hfall
  have hahead := mul_le_mul_of_nonneg_right (le_abs_self (x.base + x.quote - d)) hfall
  have hpull := mul_nonneg hweight hd.le
  rw [← abs_neg, neg_exactSlope h.gap_pos.ne', exactTilt, abs_le]
  constructor
  · linarith
  · linarith

/-- A step within the tolerance that follows the tangent leads to where `F` is not positive a
tolerance further on. -/
theorem Straight.residual_nonpos (hstep : |step| ≤ tol)
    (htangent : |a.exactResidual d x + a.exactSlope d x * step| ≤ tol / 20 * a.exactTilt d x) :
    a.exactResidual (d + step + tol) x ≤ 0 := by
  have hd := h.pos
  have htol := h.tol_pos
  obtain ⟨hback, hahead⟩ := abs_le.mp hstep
  by_cases hsum : x.base + x.quote ≤ d + step + tol
  · exact exactResidual_nonpos (by linarith) h.balances hsum
  rw [not_le] at hsum
  have hratio : (d + step + tol) / d * d = d + step + tol := div_mul_cancel₀ _ hd.ne'
  have hone : 1 ≤ (d + step + tol) / d := (one_le_div hd).mpr (by linarith)
  have hlength : d * ((d + step + tol) / d - 1) = step + tol := by
    rw [mul_sub, mul_comm, hratio]
    ring
  obtain ⟨hnear, hflat⟩ := h.right_flat hone (by linarith)
  have hsecant :=
    secant_right hd h.balances h.gap_pos hone hnear hflat (by rw [hratio]; exact hsum.le)
  rw [hlength, hratio] at hsecant
  rw [h.slope_eq (by linarith)] at htangent
  have hhere := (abs_le.mp htangent).2
  have hahead' := mul_le_mul_of_nonneg_right hahead h.tilt_nonneg
  have hrest := mul_nonneg htol.le h.tilt_nonneg
  linarith

/-- The way from `d` to the point a tolerance before the next iterate, as a ratio, where `K₀` has
not reached one there. -/
theorem Straight.exists_left_ratio (hstep : |step| ≤ tol)
    (heven : exactProduct (d + step - tol) x < 1) :
    ∃ ρ, ρ * d = d + step - tol ∧ d * (1 - ρ) = tol - step ∧ 199 / 200 ≤ ρ ∧ ρ ≤ 1 ∧
      0 < a.exactGap (ρ * d) x := by
  have hd := h.pos
  have hsmall := h.small
  obtain ⟨hback, hahead⟩ := abs_le.mp hstep
  have hratio : (d + step - tol) / d * d = d + step - tol := div_mul_cancel₀ _ hd.ne'
  refine ⟨(d + step - tol) / d, hratio, ?_, ?_, ?_, ?_⟩
  · rw [mul_sub, mul_comm d (_ / _), hratio]
    ring
  · exact (le_div_iff₀ hd).mpr (by linarith)
  · exact (div_le_one hd).mpr (by linarith)
  · have hgamma := a.gamma.toRat_nonneg
    rw [hratio]
    unfold exactGap
    linarith

/-- A step within the tolerance that follows the tangent from no further than the sum of the
balances leads to where `F` is not negative a tolerance before. -/
theorem Straight.residual_nonneg_of_le (hstep : |step| ≤ tol) (hsum : d ≤ x.base + x.quote)
    (htangent : |a.exactResidual d x + a.exactSlope d x * step| ≤ tol / 20 * a.exactTilt d x)
    (heven : exactProduct (d + step - tol) x < 1) :
    0 ≤ a.exactResidual (d + step - tol) x := by
  obtain ⟨ρ, hratio, hlength, hnear, hone, hgap'⟩ := h.exists_left_ratio hstep heven
  have hsecant := secant_left h.pos h.balances h.gap_pos hgap' hnear hone hsum
  rw [hlength, hratio] at hsecant
  rw [h.slope_eq hsum] at htangent
  have hhere := (abs_le.mp htangent).1
  have hback := mul_le_mul_of_nonneg_right (abs_le.mp hstep).1 h.tilt_nonneg
  have hrest := mul_nonneg h.tol_pos.le h.tilt_nonneg
  linarith

/-- The terms of the derivative, and the derivative itself, above the sum of the balances. The first
of them has turned its sign. -/
theorem Straight.tilt_and_slope_of_sum_lt (hsum : x.base + x.quote < d) :
    a.exactTilt d x = a.exactPull d x + d / 2 +
        (d - (x.base + x.quote)) * (a.exactWeight (exactProduct d x) * a.exactDecay d x) ∧
      a.exactSlope d x = -(a.exactPull d x + d / 2 -
        (d - (x.base + x.quote)) * (a.exactWeight (exactProduct d x) * a.exactDecay d x)) := by
  have hslope := neg_exactSlope (a := a) h.gap_pos.ne'
  have hpull : a.exactPull d x = a.exactWeight (exactProduct d x) * d := rfl
  constructor
  · rw [exactTilt, abs_of_neg (sub_neg.mpr hsum), hpull]
    ring
  · rw [hpull]
    linarith

/-- Within the tolerance the first term of the derivative changes the coefficient of the sum by a
third at most. -/
theorem Straight.tol_mul_fall_le :
    0 ≤ a.exactWeight (exactProduct d x) * a.exactDecay d x ∧
      tol * (a.exactWeight (exactProduct d x) * a.exactDecay d x) ≤ a.exactPull d x / 3 := by
  have hweight := a.exactWeight_nonneg (exactProduct_nonneg h.balances d)
  have hscaled := mul_le_mul_of_nonneg_left h.tol_mul_decay_le hweight
  have hpull : a.exactPull d x = a.exactWeight (exactProduct d x) * d := rfl
  refine ⟨mul_nonneg hweight (exactDecay_nonneg h.balances h.gap_pos), ?_⟩
  linarith

/-- An iterate above the sum of the balances from which the tangent leads no further than the
tolerance is itself no further above the sum than twice the tolerance, or little more. -/
theorem Straight.sub_sum_le (hstep : |step| ≤ tol) (hsum : x.base + x.quote < d)
    (htangent : |a.exactResidual d x + a.exactSlope d x * step| ≤ tol / 20 * a.exactTilt d x) :
    d - (x.base + x.quote) ≤ 21 / 10 * tol := by
  obtain ⟨htilt, hslope⟩ := h.tilt_and_slope_of_sum_lt hsum
  obtain ⟨hback, hahead⟩ := abs_le.mp hstep
  have hd := h.pos
  have hbase : 0 ≤ x.base := h.balances .base
  have hquote : 0 ≤ x.quote := h.balances .quote
  have hpull : 0 ≤ a.exactPull d x := exactPull_nonneg hd.le h.balances
  obtain ⟨hdecay, hfall⟩ := h.tol_mul_fall_le
  have habove := exactResidual_le (a := a) d x
  have hhere := (abs_le.mp htangent).1
  rw [htilt, hslope] at hhere
  generalize a.exactWeight (exactProduct d x) * a.exactDecay d x = e at *
  generalize a.exactPull d x = p at *
  set w := d - (x.base + x.quote) with hw
  have hwPos : 0 < w := sub_pos.mpr hsum
  have hcapital : 0 < p + d / 2 := by positivity
  have hdown := mul_le_mul_of_nonneg_right hback hcapital.le
  have hup := mul_le_mul_of_nonneg_right hahead (mul_nonneg hwPos.le hdecay)
  have hfall' := mul_le_mul_of_nonneg_left hfall hwPos.le
  have hsumPart := mul_nonneg hwPos.le (add_nonneg hbase hquote)
  have hpullPart := mul_nonneg hwPos.le hpull
  refine le_of_mul_le_mul_right ?_ hcapital
  linarith

/-- From such an iterate the tangent leads backward, but for a part of the tolerance, and no flatter
than by a third of what the terms of the derivative come to. -/
theorem Straight.le_residual_of_sum_lt (hstep : |step| ≤ tol) (hsum : x.base + x.quote < d)
    (htangent : |a.exactResidual d x + a.exactSlope d x * step| ≤ tol / 20 * a.exactTilt d x) :
    (a.exactPull d x + d / 2) * (13 / 20 * step - 7 / 20 * |step| - 17 / 200 * tol) ≤
      a.exactResidual d x := by
  obtain ⟨htilt, hslope⟩ := h.tilt_and_slope_of_sum_lt hsum
  obtain ⟨hdecay, hfall⟩ := h.tol_mul_fall_le
  have hd := h.pos
  have hpull : 0 ≤ a.exactPull d x := exactPull_nonneg hd.le h.balances
  have hturned : (d - (x.base + x.quote)) *
      (a.exactWeight (exactProduct d x) * a.exactDecay d x) ≤ 7 / 10 * a.exactPull d x := by
    have hscaled := mul_le_mul_of_nonneg_right (h.sub_sum_le hstep hsum htangent) hdecay
    linarith
  have hhere := (abs_le.mp htangent).1
  rw [htilt, hslope] at hhere
  have hturnedNonneg := mul_nonneg (sub_pos.mpr hsum).le hdecay
  generalize (d - (x.base + x.quote)) *
    (a.exactWeight (exactProduct d x) * a.exactDecay d x) = q at *
  have htol := h.tol_pos
  have hrest := mul_le_mul_of_nonneg_left hturned htol.le
  have hrest' := mul_nonneg htol.le hd.le
  rcases le_total 0 step with hpos | hneg
  · rw [abs_of_nonneg hpos]
    have hstepTurned := mul_le_mul_of_nonneg_left hturned hpos
    have hstepPos := mul_nonneg hpos hd.le
    linarith
  · rw [abs_of_nonpos hneg]
    have hstepTurned := mul_nonneg (neg_nonneg.mpr hneg) hturnedNonneg
    linarith

/-- As `Straight.residual_nonneg_of_le`, from above the sum of the balances. -/
theorem Straight.residual_nonneg_of_sum_lt (hstep : |step| ≤ tol) (hsum : x.base + x.quote < d)
    (htangent : |a.exactResidual d x + a.exactSlope d x * step| ≤ tol / 20 * a.exactTilt d x)
    (heven : exactProduct (d + step - tol) x < 1) :
    0 ≤ a.exactResidual (d + step - tol) x := by
  obtain ⟨ρ, hratio, hlength, hnear, hone, hgap'⟩ := h.exists_left_ratio hstep heven
  have hd := h.pos
  have htol := h.tol_pos
  have hpull : 0 ≤ a.exactPull d x := exactPull_nonneg hd.le h.balances
  have hcapital : 0 < a.exactPull d x + d / 2 := by positivity
  have hhere := h.le_residual_of_sum_lt hstep hsum htangent
  have hback : -step ≤ |step| := neg_le_abs step
  have hahead : step ≤ |step| := le_abs_self step
  by_cases hbelow : d + step - tol ≤ x.base + x.quote
  · have hsecant := secant_left_of_sum_lt hd h.balances h.gap_pos hgap' hnear hone
      (by rw [hratio]; exact hbelow)
    rw [hlength, hratio] at hsecant
    have hroom :
        0 ≤ (a.exactPull d x + d / 2) * (93 / 200 * tol + 1 / 10 * step - 7 / 20 * |step|) :=
      mul_nonneg hcapital.le (by linarith)
    linarith
  · -- The next iterate would be further above the sum than the residual allows.
    exfalso
    rw [not_le] at hbelow
    have habove := exactResidual_le (a := a) d x
    have hnearSum := h.sub_sum_le hstep hsum htangent
    have hsmall := h.small
    have hsteep : 99 / 100 * (a.exactPull d x + d / 2) ≤
        a.exactPull d x + (d + (x.base + x.quote)) / 4 := by linarith
    have hheight := mul_le_mul_of_nonneg_left hsteep (sub_pos.mpr hsum).le
    have hcross : (a.exactPull d x + d / 2) * (99 / 100 * (d - (x.base + x.quote))) ≤
        (a.exactPull d x + d / 2) * (7 / 20 * |step| - 13 / 20 * step + 17 / 200 * tol) := by
      linarith
    have hless := le_of_mul_le_mul_left hcross hcapital
    linarith

/-- A step within the tolerance that follows the tangent leads to within the tolerance of the root:
`F` is not negative a tolerance before, and not positive a tolerance further on. -/
theorem Straight.straddles (hstep : |step| ≤ tol)
    (htangent : |a.exactResidual d x + a.exactSlope d x * step| ≤ tol / 20 * a.exactTilt d x) :
    0 ≤ a.exactResidual (d + step - tol) x ∧ a.exactResidual (d + step + tol) x ≤ 0 := by
  refine ⟨?_, h.residual_nonpos hstep htangent⟩
  by_cases heven : 1 ≤ exactProduct (d + step - tol) x
  · have hsmall := h.small
    have htol := h.tol_pos
    have hback := (abs_le.mp hstep).1
    exact supports_of_one_le (by linarith) h.balances heven
  rw [not_le] at heven
  rcases le_or_gt d (x.base + x.quote) with hsum | hsum
  · exact h.residual_nonneg_of_le hstep hsum htangent heven
  · exact h.residual_nonneg_of_sum_lt hstep hsum htangent heven

end Straight

end AmpGamma

end ConcentratedPool
