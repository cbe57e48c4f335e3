import ConcentratedPool.Proofs.BalanceRounding
import ConcentratedPool.Proofs.SolverAccuracy

/-!
# The accuracy of a solved balance

A balance that the solver returns comes from a last step of Newton's method that was within the
tolerance (`AmpGamma.exists_last_step_balance`). That the step was short does not yet say that the
root is near: the curve must be straight on the scale of the tolerance, and eighteen places must be
enough. `AmpGamma.WellScaled` states both at the answer, in terms of the invariant, the other
balance and the answer itself, and there the root of the exact curve is within the tolerance
(`AmpGamma.NearRoot`, `AmpGamma.balance_nearRoot`).
-/

set_option autoImplicit false
set_option relaxedAutoImplicit false

namespace ConcentratedPool

namespace AmpGamma

/-- The root of the curve, as a function of the balance `y`, is within the tolerance of `y`: `F` is
not positive a tolerance before, and not negative a tolerance further on. -/
def NearRoot (a : AmpGamma) (d x y : ℚ) : Prop :=
  a.exactResidual d ⟨x, y - Limits.tolerance.toRat⟩ ≤ 0 ∧
    0 ≤ a.exactResidual d ⟨x, y + Limits.tolerance.toRat⟩

instance (a : AmpGamma) (d x y : ℚ) : Decidable (a.NearRoot d x y) :=
  inferInstanceAs (Decidable (_ ∧ _))

/-- An invariant, a balance and an answer for the other balance near which the solver can be relied
on: the gap times the answer is at least sixteen tolerances, the invariant is at least one, its
product with the sum of the balances is at most `10¹²` times the balance, and its square at most
`10¹²` times `γ` and the balance. -/
def WellScaled (a : AmpGamma) (d x y : ℚ) : Prop :=
  1 ≤ d ∧ 16 * Limits.tolerance.toRat ≤ a.exactGap d ⟨x, y⟩ * y ∧
    d * (x + y) ≤ 10 ^ 12 * x ∧ d ^ 2 ≤ 10 ^ 12 * (a.gamma.toRat * x)

instance (a : AmpGamma) (d x y : ℚ) : Decidable (a.WellScaled d x y) :=
  inferInstanceAs (Decidable (_ ∧ _ ∧ _ ∧ _))

variable {a : AmpGamma}

/-! ### The last step -/

/-- A balance above the tolerance comes from a last step of Newton's method that was within the
tolerance. -/
theorem exists_last_step_balance {x : Pair Decimal} {d y : Decimal} {side : Side}
    (h : a.balance x.toList d side = .ok y) (hlarge : Limits.tolerance.toRat < y.toRat) :
    ∃ last v s q : SignedDecimal,
      a.curve.residual d.toSigned ((x.map Decimal.toSigned).set side last) = .ok v ∧
      a.curve.slopeBalance d.toSigned ((x.map Decimal.toSigned).set side last) side = .ok s ∧
      (v / s : Except Fault SignedDecimal) = .ok q ∧ y.toRat = last.toRat - q.toRat ∧
      |q.toRat| ≤ Limits.tolerance.toRat := by
  simp only [balance, positiveBalances, Pair.ofBalances, Pair.ofList?_toList, refuse_eq_ok,
    bind_eq_ok, pure_eq_ok, Curve.solveBalance] at h
  obtain ⟨_, ⟨_, hx, -, rfl⟩, -, square, -, quadruple, -, start, -, next, hsettled, hvalue⟩ := h
  obtain rfl := Except.ok.inj hx
  have hvalue := SignedDecimal.toRat_of_toUnsigned hvalue
  obtain ⟨last, hstep, hclose⟩ := exists_step_of_settle hsettled
  have hclose := SignedDecimal.abs_sub_le_of_isClose hclose
  rw [hvalue] at hlarge
  simp only [Curve.stepBalance, bind_eq_ok] at hstep
  obtain ⟨v, hv, s, hs, hstep⟩ := hstep
  obtain ⟨q, hq, hmoved⟩ := exists_quotient_of_newtonStep hstep hclose hlarge
  refine ⟨last, v, s, q, hv, hs, hq, hvalue.trans hmoved, ?_⟩
  rw [hmoved, sub_sub_cancel_left, abs_neg] at hclose
  exact hclose

/-! ### Where the step was short because the root is near -/

section WellScaled

variable {d x y : ℚ} (hγ : a.gamma.toRat ≤ 1 / 50) (h : a.WellScaled d x y) (hy : 0 ≤ y)
include hγ h hy

/-- What a well-scaled answer is above. -/
theorem WellScaled.pos : 0 < x ∧ 15 / 1000 < y ∧
    (0 < a.exactGap d ⟨x, y⟩ ∧ a.exactGap d ⟨x, y⟩ ≤ 51 / 50) ∧
    0 < exactProduct d ⟨x, y⟩ ∧ exactProduct d ⟨x, y⟩ ≤ 51 / 50 := by
  obtain ⟨hlarge, hflat, -, hsize⟩ := h
  rw [Limits.tolerance_toRat] at hflat
  have hgammaNonneg := a.gamma.toRat_nonneg
  have hx : 0 < x := by
    have hsq : 1 ≤ d ^ 2 := one_le_pow₀ hlarge
    exact pos_of_mul_pos_right (by linarith : 0 < a.gamma.toRat * x) hgammaNonneg
  have hgap : 0 < a.exactGap d ⟨x, y⟩ := pos_of_mul_pos_left (by linarith) hy
  have hyPos : 0 < y := pos_of_mul_pos_right (by linarith) hgap.le
  have hk := exactProduct_pos (by linarith : 0 < d) hx hyPos
  have hgapLe : a.exactGap d ⟨x, y⟩ ≤ 51 / 50 := by
    unfold exactGap
    linarith
  refine ⟨hx, ?_, ⟨hgap, hgapLe⟩, hk, ?_⟩
  · have hscaled := mul_le_mul_of_nonneg_right hgapLe hy
    linarith
  · unfold exactGap at hgap
    linarith

/-- The gap times the balance, at a neighbour of a well-scaled answer. The gap is a difference that
moves with `K₀`, in proportion to the step. -/
theorem WellScaled.flat_of_near {q : ℚ} (hq : |q| ≤ Limits.tolerance.toRat) :
    13 * Limits.tolerance.toRat ≤ a.exactGap d ⟨x, y + q⟩ * (y + q) := by
  obtain ⟨-, hyLarge, ⟨hgap, hgapLe⟩, hk, hkOne⟩ := h.pos hγ hy
  have hflat := h.2.1
  rw [Limits.tolerance_toRat] at hflat hq ⊢
  have hyPos : 0 < y := by linarith
  have hmoved :
      a.exactGap d ⟨x, y + q⟩ * y = a.exactGap d ⟨x, y⟩ * y - exactProduct d ⟨x, y⟩ * q := by
    rw [← exactProduct_add]
    unfold exactGap
    ring
  have hexpand : a.exactGap d ⟨x, y + q⟩ * (y + q) * y = a.exactGap d ⟨x, y⟩ * y * y +
      (a.exactGap d ⟨x, y⟩ * q * y - exactProduct d ⟨x, y⟩ * q * y -
        exactProduct d ⟨x, y⟩ * q ^ 2) := by
    calc a.exactGap d ⟨x, y + q⟩ * (y + q) * y = a.exactGap d ⟨x, y + q⟩ * y * (y + q) := by ring
      _ = _ := by
        rw [hmoved]
        ring
  have hwide := mul_le_mul_of_nonneg_right hflat hy
  have hgapPart : -(51 / 50 * (1 / 1000) * y) ≤ a.exactGap d ⟨x, y⟩ * q * y := by
    have habs : |a.exactGap d ⟨x, y⟩ * q| ≤ 51 / 50 * (1 / 1000) := by
      rw [abs_mul, abs_of_pos hgap]
      exact mul_le_mul hgapLe hq (abs_nonneg _) (by norm_num)
    have hscaled := mul_le_mul_of_nonneg_right (abs_le.mp habs).1 hy
    linarith
  have hproductPart : exactProduct d ⟨x, y⟩ * q * y ≤ 51 / 50 * (1 / 1000) * y := by
    have habs : |exactProduct d ⟨x, y⟩ * q| ≤ 51 / 50 * (1 / 1000) := by
      rw [abs_mul, abs_of_pos hk]
      exact mul_le_mul hkOne hq (abs_nonneg _) (by norm_num)
    exact mul_le_mul_of_nonneg_right (abs_le.mp habs).2 hy
  have hsquarePart : exactProduct d ⟨x, y⟩ * q ^ 2 ≤ 51 / 50 * (1 / 1000 * (y / 15)) := by
    have hsq : q ^ 2 ≤ 1 / 1000 * (y / 15) := by
      rw [← sq_abs, pow_two]
      exact mul_le_mul hq (by linarith) (abs_nonneg _) (by norm_num)
    exact mul_le_mul hkOne hsq (sq_nonneg q) (by norm_num)
  refine le_of_mul_le_mul_right ?_ hyPos
  rw [hexpand]
  linarith

/-- Around a well-scaled answer eighteen places are enough. -/
theorem WellScaled.resolved {q : ℚ} (hamp : 2 / 5 ≤ a.amp.toRat)
    (hγLow : 1 / 10 ^ 7 ≤ a.gamma.toRat) (hq : |q| ≤ Limits.tolerance.toRat) :
    a.ResolvedBalance d x (y + q) := by
  obtain ⟨hx, hyLarge, -, -, -⟩ := h.pos hγ hy
  have hflat := h.flat_of_near hγ hy hq
  obtain ⟨hlarge, -, hreach, hsize⟩ := h
  have hd : 0 < d := by linarith
  rw [Limits.tolerance_toRat] at hq
  obtain ⟨hqLow, hqHigh⟩ := abs_le.mp hq
  have hreach' : d * (x + (y + q)) ≤ 11 / 10 * 10 ^ 12 * x := by
    have hstep := mul_le_mul_of_nonneg_left (by linarith : q ≤ (x + y) / 15) hd.le
    linarith
  refine ⟨⟨?_, hd, hx, by linarith, hγ, hflat⟩, hamp, hγLow, hlarge, hreach', hsize⟩
  norm_num [Limits.tolerance_toRat]

end WellScaled

/-- The accuracy of a solved balance. For curve parameters in their ranges, the root of the exact
curve is within the tolerance of every answer of the solver that is well scaled. -/
theorem balance_nearRoot {x : Pair Decimal} {d y : Decimal} {side : Side} (ha : a.InRange)
    (h : a.balance x.toList d side = .ok y)
    (hscaled : a.WellScaled d.toRat (x.get side.other).toRat y.toRat) :
    a.NearRoot d.toRat (x.get side.other).toRat y.toRat := by
  obtain ⟨⟨hamp, -⟩, hγLow, hγ⟩ := ha.toRat_bounds
  have hy := y.toRat_nonneg
  have hyLarge : Limits.tolerance.toRat < y.toRat := by
    obtain ⟨-, hyLarge, -⟩ := hscaled.pos hγ hy
    rw [Limits.tolerance_toRat]
    linarith
  obtain ⟨last, v, s, q, hv, hs, hq, hmoved, hstep⟩ := exists_last_step_balance h hyLarge
  have hlast : last.toRat = y.toRat + q.toRat := by linarith
  have hother : (((x.map Decimal.toSigned).set side last).get side.other).toRat =
      (x.get side.other).toRat := by
    rw [Pair.get_set_other, Pair.get_map, SignedDecimal.toRat_toSigned]
  have hself : (((x.map Decimal.toSigned).set side last).get side).toRat = last.toRat := by
    rw [Pair.get_set_self]
  have hinvariant : d.toSigned.toRat = d.toRat := SignedDecimal.toRat_toSigned d
  have hresolved : a.ResolvedBalance d.toSigned.toRat
      (((x.map Decimal.toSigned).set side last).get side.other).toRat
      (((x.map Decimal.toSigned).set side last).get side).toRat := by
    rw [hother, hself, hinvariant, hlast]
    exact hscaled.resolved hγ hy hamp hγLow hstep
  have htangent := hresolved.tangent_of_quotient hv hs hq hstep
  have hboth := hresolved.straight.straddles (by rwa [abs_neg]) htangent
  rw [hother, hself, hinvariant, ← sub_eq_add_neg, ← hmoved] at hboth
  exact hboth

end AmpGamma

end ConcentratedPool
