import ConcentratedPool.Proofs.CurveSecants
import ConcentratedPool.Proofs.TangentStep

/-!
# The tangent of the curve

`AmpGamma.tangent` is what a step of Newton's method sees of the curve at an invariant `d`, and its
value is `F` (`AmpGamma.tangent_value`). The reach is the reciprocal of the rate at which the
coefficient of the sum falls, `gap / (gap + 4 K₀)` of the invariant, so that the span is that part
of the derivative (`AmpGamma.tangent_span`).

Only the gap `γ + 1 - K₀` takes part in what a step does to the curve: from how it widens follow the
coefficient (`AmpGamma.exactPull_move`) and the reach (`AmpGamma.exactShare_move`), by the factors
of `TangentStep`, and from these the tangent at the new invariant (`AmpGamma.tangent_move`). All of
them are exact.
-/

set_option autoImplicit false
set_option relaxedAutoImplicit false

namespace ConcentratedPool

namespace AmpGamma

variable (a : AmpGamma)

/-- The part of the invariant over which the coefficient of the sum would fall by its own size, at
its present rate. -/
def exactShare (d : ℚ) (x : Pair ℚ) : ℚ := 1 / a.exactDecay d x

/-- The curve at `d`, as a step of Newton's method sees it. -/
def tangent (d : ℚ) (x : Pair ℚ) : Tangent where
  room := x.base + x.quote - d
  pull := a.exactPull d x
  reach := a.exactShare d x * d
  size := d
  lack := d ^ 2 / 4 - x.base * x.quote

/-- The invariant after a step of `ρ` reaches. -/
def moved (d : ℚ) (x : Pair ℚ) (ρ : ℚ) : ℚ := (1 + a.exactShare d x * ρ) * d

variable {a} {d ρ : ℚ} {x : Pair ℚ}

/-- The value of the tangent is `F`. -/
theorem tangent_value (a : AmpGamma) (d : ℚ) (x : Pair ℚ) :
    (a.tangent d x).value = a.exactResidual d x := by
  rw [exactResidual_eq]
  simp only [tangent, Tangent.value]
  ring

section Gap

variable (hk : 0 < exactProduct d x) (hgap : 0 < a.exactGap d x)
include hk hgap

theorem one_lt_exactDecay : 1 < a.exactDecay d x := by
  have : 0 < 4 * exactProduct d x / a.exactGap d x := by positivity
  unfold exactDecay
  linarith

theorem exactShare_pos : 0 < a.exactShare d x :=
  one_div_pos.mpr (one_pos.trans (one_lt_exactDecay hk hgap))

theorem exactShare_le_one : a.exactShare d x ≤ 1 :=
  (div_le_one (one_pos.trans (one_lt_exactDecay hk hgap))).mpr (one_lt_exactDecay hk hgap).le

/-- The reach is the part `gap / (gap + 4 K₀)` of the invariant. -/
theorem exactShare_mul : a.exactShare d x * (a.exactGap d x + 4 * exactProduct d x) =
    a.exactGap d x := by
  have hdecay := one_lt_exactDecay hk hgap
  have heq : a.exactDecay d x * a.exactGap d x = a.exactGap d x + 4 * exactProduct d x := by
    unfold exactDecay
    field_simp
  rw [← heq, exactShare, ← mul_assoc, one_div_mul_cancel (by positivity), one_mul]

/-- The span is what the derivative says over a whole reach. -/
theorem tangent_span : (a.tangent d x).span = a.exactShare d x * d * -a.exactSlope d x := by
  have hdecay := one_lt_exactDecay hk hgap
  rw [neg_exactSlope hgap.ne']
  simp only [tangent, Tangent.span, exactShare, exactPull]
  field_simp

/-! ### After a step -/

section Move

variable (hz : 0 < 1 + a.exactShare d x * ρ)
include hz

/-- Times the square of the invariant, the gap widens by the factor `widening`. -/
theorem exactGap_move :
    a.exactGap ((1 + a.exactShare d x * ρ) * d) x * (1 + a.exactShare d x * ρ) ^ 2 =
      a.exactGap d x * widening (a.exactShare d x) ρ := by
  have hmoved := a.exactGap_mul (d := d) (x := x) hz.ne'
  have hshare := exactShare_mul hk hgap
  have hrest : a.exactGap d x * (1 - a.exactShare d x) =
      exactProduct d x * (4 * a.exactShare d x) := by linarith
  rw [sub_mul, sub_eq_iff_eq_add] at hmoved
  rw [hmoved, widening_eq, mul_add, ← mul_assoc, hrest]
  ring

variable (hw : 0 < widening (a.exactShare d x) ρ)
include hw

theorem exactGap_move_pos : 0 < a.exactGap ((1 + a.exactShare d x * ρ) * d) x := by
  refine pos_of_mul_pos_left (b := (1 + a.exactShare d x * ρ) ^ 2) ?_ (by positivity)
  rw [exactGap_move hk hgap hz]
  positivity

/-- The coefficient of the sum after a step. -/
theorem exactPull_move : a.exactPull ((1 + a.exactShare d x * ρ) * d) x =
    pullRatio (a.exactShare d x) ρ * a.exactPull d x := by
  have hwide := exactGap_move hk hgap hz
  have hgap' := exactGap_move_pos hk hgap hz hw
  have hpull := exactPull_mul hz.ne' hgap.ne' hgap'.ne'
  rw [pullRatio, div_mul_eq_mul_div, eq_div_iff (by positivity)]
  generalize 1 + a.exactShare d x * ρ = z at *
  refine mul_left_cancel₀ (by positivity : z * a.exactGap d x ^ 2 ≠ 0) ?_
  calc z * a.exactGap d x ^ 2 * (a.exactPull (z * d) x * widening (a.exactShare d x) ρ ^ 2)
      = a.exactPull (z * d) x * (z * (a.exactGap d x * widening (a.exactShare d x) ρ) ^ 2) := by
        ring
    _ = a.exactPull (z * d) x * (z * a.exactGap (z * d) x ^ 2) * z ^ 4 := by
        rw [← hwide]
        ring
    _ = z * a.exactGap d x ^ 2 * (z ^ 3 * a.exactPull d x) := by
        rw [hpull]
        ring

/-- The part of the invariant that the reach is, after a step. -/
theorem exactShare_move : a.exactShare ((1 + a.exactShare d x * ρ) * d) x *
    (1 + a.exactShare d x * (widening (a.exactShare d x) ρ - 1)) =
      a.exactShare d x * widening (a.exactShare d x) ρ := by
  have hwide := exactGap_move hk hgap hz
  have hgap' := exactGap_move_pos hk hgap hz hw
  have hshare := exactShare_mul hk hgap
  have hk' : 0 < exactProduct ((1 + a.exactShare d x * ρ) * d) x := by
    rw [exactProduct_mul]
    positivity
  have hshare' := exactShare_mul hk' hgap'
  have hnext : a.exactShare ((1 + a.exactShare d x * ρ) * d) x *
      (a.exactGap d x * widening (a.exactShare d x) ρ + 4 * exactProduct d x) =
        a.exactGap d x * widening (a.exactShare d x) ρ := by
    rw [exactProduct_mul] at hshare'
    rw [← hwide]
    field_simp at hshare' ⊢
    linarith
  refine mul_left_cancel₀ (by positivity : a.exactGap d x + 4 * exactProduct d x ≠ 0) ?_
  calc (a.exactGap d x + 4 * exactProduct d x) *
        (a.exactShare ((1 + a.exactShare d x * ρ) * d) x *
          (1 + a.exactShare d x * (widening (a.exactShare d x) ρ - 1)))
      = a.exactShare ((1 + a.exactShare d x * ρ) * d) x *
          (a.exactGap d x + 4 * exactProduct d x +
            a.exactShare d x * (a.exactGap d x + 4 * exactProduct d x) *
              (widening (a.exactShare d x) ρ - 1)) := by ring
    _ = a.exactShare d x * (a.exactGap d x + 4 * exactProduct d x) *
          widening (a.exactShare d x) ρ := by
        rw [hshare, ← hnext]
        ring
    _ = (a.exactGap d x + 4 * exactProduct d x) *
          (a.exactShare d x * widening (a.exactShare d x) ρ) := by ring

end Move

/-- The tangent after a step of `ρ` reaches. -/
theorem tangent_move (hz : 0 < 1 + a.exactShare d x * ρ) (hw : 0 < widening (a.exactShare d x) ρ) :
    a.tangent (a.moved d x ρ) x = (a.tangent d x).move ρ
      (pullRatio (a.exactShare d x) ρ) (reachRatio (a.exactShare d x) ρ) := by
  have hshare := exactShare_pos hk hgap
  have hone := exactShare_le_one hk hgap
  have hden : 0 < 1 + a.exactShare d x * (widening (a.exactShare d x) ρ - 1) := by
    have := mul_pos hshare hw
    linarith
  have hreach :
      a.exactShare ((1 + a.exactShare d x * ρ) * d) x * ((1 + a.exactShare d x * ρ) * d) =
        reachRatio (a.exactShare d x) ρ * (a.exactShare d x * d) := by
    rw [reachRatio, eq_div_of_mul_eq hden.ne' (exactShare_move hk hgap hz hw)]
    ring
  simp only [moved, tangent, Tangent.move, Tangent.mk.injEq]
  refine ⟨by ring, exactPull_move hk hgap hz hw, hreach, by ring, by ring⟩

end Gap

end AmpGamma

end ConcentratedPool
