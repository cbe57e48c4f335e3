import Mathlib.Algebra.Order.Field.Rat
import Mathlib.Tactic.FieldSimp
import Mathlib.Tactic.GCongr
import Mathlib.Tactic.Linarith
import Mathlib.Tactic.Positivity
import Mathlib.Tactic.Ring

/-!
# One step of Newton's method along the curve

`F` is the coefficient of the sum of the balances times the room that the sum leaves above the
invariant, less what the square of the invariant lacks of the balances' product (`Tangent.value`).
A step is measured in reaches: the reach is the length over which the coefficient would fall by its
own size at its present rate. In that unit the tangent asks for a step of `value / span`, which is
below one whatever the size of the pool.

Over a step of `ρ` reaches the coefficient and the reach change by factors that depend on `ρ` and on
the fraction `b` of the invariant that the reach is, and on nothing else (`pullRatio`,
`reachRatio`). The first two sections bound the factors for steps forward, to a larger invariant,
and for short steps back. What a step does to the curve follows from the bounds, also when the step
is only near that of the tangent (`Tangent.Follows`):

* a step forward passes the root by no more than a fifth of the new span (`Tangent.Ahead.value_ge`)
  and the sum of the balances by no more than a tenth of the new reach (`Tangent.Ahead.room_ge`);
* it divides the share of the coefficient in the span by the third power of what the coefficient
  falls by at least (`Tangent.Ahead.cube_growth`);
* it raises the odds of the rest of the span against the value (`Tangent.Ahead.odds_growth`);
* a short step, forward or back, leaves a value of the order of its square
  (`Tangent.Near.abs_value_le`).
-/

set_option autoImplicit false
set_option relaxedAutoImplicit false

namespace ConcentratedPool

/-! ### The factors of a step -/

/-- The factor by which the gap times the square of the invariant grows over a step of `ρ` reaches,
where the reach is the fraction `b` of the invariant. -/
def widening (b ρ : ℚ) : ℚ := 1 + (1 + 3 * b) / 2 * ρ * (1 + b * ρ / 2)

/-- The factor by which the coefficient of the sum changes over such a step. -/
def pullRatio (b ρ : ℚ) : ℚ := (1 + b * ρ) ^ 3 / widening b ρ ^ 2

/-- The factor by which the reach changes over such a step. -/
def reachRatio (b ρ : ℚ) : ℚ :=
  (1 + b * ρ) * widening b ρ / (1 + b * (widening b ρ - 1))

section Ratios

variable {b ρ : ℚ}

/-- The widening beside the square of the invariant's own factor. -/
theorem widening_eq (b ρ : ℚ) :
    widening b ρ = (1 + b * ρ) ^ 2 + (1 - b) * (ρ * (2 + b * ρ) / 4) := by
  unfold widening
  ring

variable (hb : 0 ≤ b) (hone : b ≤ 1)

/-! ### Forward -/

section Forward

variable (hρ : 0 ≤ ρ)
include hb hρ

theorem mul_le_widening (hfar : ρ ≤ 2) : (1 + b * ρ) * (1 + ρ / 2) ≤ widening b ρ := by
  have hz : 0 ≤ b * ρ := mul_nonneg hb hρ
  have hdiff : widening b ρ - (1 + b * ρ) * (1 + ρ / 2) = b * ρ * ((2 - ρ) + 3 * (b * ρ)) / 4 := by
    unfold widening
    ring
  have hnonneg : 0 ≤ b * ρ * ((2 - ρ) + 3 * (b * ρ)) := mul_nonneg hz (by linarith)
  linarith

theorem one_le_widening : 1 ≤ widening b ρ := by
  have hz : 0 ≤ b * ρ := mul_nonneg hb hρ
  have : 0 ≤ (1 + 3 * b) / 2 * ρ * (1 + b * ρ / 2) := by positivity
  unfold widening
  linarith

include hone

theorem sq_le_widening : (1 + b * ρ) ^ 2 ≤ widening b ρ := by
  have hz : 0 ≤ b * ρ := mul_nonneg hb hρ
  have hrest : 0 ≤ (1 - b) * (ρ * (2 + b * ρ) / 4) := by
    have := sub_nonneg.mpr hone
    positivity
  rw [widening_eq]
  linarith

/-- The coefficient is divided by at least `1 + ρ / 2`. -/
theorem mul_pullRatio_le (hfar : ρ ≤ 2) : (1 + ρ / 2) * pullRatio b ρ ≤ 1 := by
  have hz : 0 ≤ b * ρ := mul_nonneg hb hρ
  have hw := one_le_widening hb hρ
  have hfirst := mul_le_widening hb hρ hfar
  have hsecond := sq_le_widening hb hone hρ
  rw [pullRatio, ← mul_div_assoc, div_le_one (by positivity)]
  calc (1 + ρ / 2) * (1 + b * ρ) ^ 3 = (1 + b * ρ) * (1 + ρ / 2) * (1 + b * ρ) ^ 2 := by ring
    _ ≤ widening b ρ * widening b ρ := mul_le_mul hfirst hsecond (by positivity) (by linarith)
    _ = widening b ρ ^ 2 := by ring

/-- The coefficient is divided by at most the square of `1 + ρ / 2`. -/
theorem one_le_sq_mul_pullRatio : 1 ≤ (1 + ρ / 2) ^ 2 * pullRatio b ρ := by
  have hw := one_le_widening hb hρ
  have hcoeff₂ : 0 ≤ b * (1 - 3 / 4 * b) := mul_nonneg hb (by linarith)
  have hcoeff₃ : 0 ≤ b * (1 / 2 + b * (3 / 2 - 5 / 4 * b)) := by
    have : 0 ≤ 3 / 2 - 5 / 4 * b := by linarith
    positivity
  have hcoeff₄ : 0 ≤ b ^ 2 * (11 / 16 + b * (5 / 8 - 9 / 16 * b)) := by
    have : 0 ≤ 5 / 8 - 9 / 16 * b := by linarith
    positivity
  have hdiff : (1 + ρ / 2) ^ 2 * (1 + b * ρ) ^ 3 - widening b ρ ^ 2 =
      b * (1 - 3 / 4 * b) * ρ ^ 2 + b * (1 / 2 + b * (3 / 2 - 5 / 4 * b)) * ρ ^ 3 +
        b ^ 2 * (11 / 16 + b * (5 / 8 - 9 / 16 * b)) * ρ ^ 4 + b ^ 3 / 4 * ρ ^ 5 := by
    unfold widening
    ring
  rw [pullRatio, ← mul_div_assoc, one_le_div (by positivity), ← sub_nonneg, hdiff]
  positivity

/-- The coefficient is divided by `1 + ρ`, up to the square of the step. -/
theorem pullRatio_mul_le : pullRatio b ρ * (1 + ρ) ≤ 1 + ρ ^ 2 / 4 := by
  have hw := one_le_widening hb hρ
  have hcoeff₂ : 0 ≤ 1 / 2 - b + 3 / 4 * b ^ 2 := by linarith [sq_nonneg (b - 2 / 3)]
  have hcoeff₃ : 0 ≤ 1 / 4 + b * (1 - b * (3 / 2 - 5 / 4 * b)) := by
    have : 0 ≤ 1 - b * (3 / 2 - 5 / 4 * b) := by linarith
    positivity
  have hcoeff₄ : 0 ≤ 1 / 16 + b * (1 / 2 + b * ((1 - 5 / 8 * b) + 9 / 16 * b ^ 2)) := by
    have : 0 ≤ 1 - 5 / 8 * b := by linarith
    positivity
  have hdiff : (1 + ρ ^ 2 / 4) * widening b ρ ^ 2 - (1 + b * ρ) ^ 3 * (1 + ρ) =
      (1 / 2 - b + 3 / 4 * b ^ 2) * ρ ^ 2 + (1 / 4 + b * (1 - b * (3 / 2 - 5 / 4 * b))) * ρ ^ 3 +
        (1 / 16 + b * (1 / 2 + b * ((1 - 5 / 8 * b) + 9 / 16 * b ^ 2))) * ρ ^ 4 +
        b * (1 / 16 + 3 / 8 * b + 9 / 16 * b ^ 2) * ρ ^ 5 +
        b ^ 2 * (1 / 64 + 3 / 32 * b + 9 / 64 * b ^ 2) * ρ ^ 6 := by
    unfold widening
    ring
  rw [pullRatio, div_mul_eq_mul_div, div_le_iff₀ (by positivity), ← sub_nonneg, hdiff]
  positivity

/-- The reach grows by at least half of the step. -/
theorem le_reachRatio : 1 + ρ * (1 + b) / 2 ≤ reachRatio b ρ := by
  have hz : 0 ≤ b * ρ := mul_nonneg hb hρ
  have hw := one_le_widening hb hρ
  have hden : 0 < 1 + b * (widening b ρ - 1) := by
    have := mul_nonneg hb (sub_nonneg.mpr hw)
    linarith
  have hwide : 1 + ρ * (1 + b) / 2 ≤ widening b ρ * (1 + b * ρ / 2) := by
    have : 0 ≤ b * ρ + (1 + 3 * b) / 2 * ρ * (b * ρ / 2) := by positivity
    calc 1 + ρ * (1 + b) / 2 ≤ widening b ρ * 1 := by
          unfold widening
          linarith
      _ ≤ widening b ρ * (1 + b * ρ / 2) := by
          gcongr
          linarith
  have hdiff : (1 + b * ρ) * widening b ρ - (1 + ρ * (1 + b) / 2) * (1 + b * (widening b ρ - 1)) =
      (1 - b) * (widening b ρ * (1 + b * ρ / 2) - (1 + ρ * (1 + b) / 2)) := by ring
  have := mul_nonneg (sub_nonneg.mpr hone) (sub_nonneg.mpr hwide)
  rw [reachRatio, le_div_iff₀ hden]
  linarith

/-- The product of reach and invariant, over the coefficient, grows by at least the third power of
`1 + ρ / 2`. -/
theorem cube_mul_pullRatio_le (hfar : ρ ≤ 2) :
    (1 + ρ / 2) ^ 3 * pullRatio b ρ ≤ reachRatio b ρ * (1 + b * ρ) := by
  have hz : 0 ≤ b * ρ := mul_nonneg hb hρ
  have hw := one_le_widening hb hρ
  have hden : 0 < 1 + b * (widening b ρ - 1) := by
    have := mul_nonneg hb (sub_nonneg.mpr hw)
    linarith
  have hfirst := mul_le_widening hb hρ hfar
  have hquadratic : (1 + ρ / 2) ^ 2 * (1 + b * (widening b ρ - 1)) ≤ widening b ρ ^ 2 := by
    have hslope : 0 ≤ widening b ρ + (1 + b * ρ) * (1 + ρ / 2) - (1 + ρ / 2) ^ 2 * b := by
      have : 0 ≤ (1 + ρ / 2) * ((2 - b) + 3 / 2 * (b * ρ)) :=
        mul_nonneg (by linarith) (by linarith)
      linarith
    have hgrow := mul_nonneg (sub_nonneg.mpr hfirst) hslope
    have hvalue : 0 ≤ (1 + ρ / 2) ^ 2 * (b * ρ) * (3 / 2 - b + b * ρ / 2) := by
      have : 0 ≤ 3 / 2 - b := by linarith
      positivity
    linarith
  rw [pullRatio, reachRatio, ← mul_div_assoc, div_mul_eq_mul_div,
    div_le_div_iff₀ (by positivity) hden]
  calc (1 + ρ / 2) ^ 3 * (1 + b * ρ) ^ 3 * (1 + b * (widening b ρ - 1))
      = (1 + b * ρ) ^ 2 * ((1 + b * ρ) * (1 + ρ / 2)) *
          ((1 + ρ / 2) ^ 2 * (1 + b * (widening b ρ - 1))) := by ring
    _ ≤ (1 + b * ρ) ^ 2 * widening b ρ * widening b ρ ^ 2 := by gcongr
    _ = (1 + b * ρ) * widening b ρ * (1 + b * ρ) * widening b ρ ^ 2 := by ring

/-- The square of a step of little more than a reach is small beside the next reach. -/
theorem sq_mul_le_reachRatio (hfar : ρ ≤ 21 / 20) :
    ρ ^ 2 * b ≤ 4 / 15 * (reachRatio b ρ * (1 + b * ρ)) := by
  have hz : 0 ≤ b * ρ := mul_nonneg hb hρ
  have hreach := le_reachRatio hb hone hρ
  have hsq : ρ ^ 2 ≤ 4 / 15 * (1 + ρ) ^ 2 := by nlinarith
  have hrest : 0 ≤ (1 - b) * (1 + ρ / 2 * (1 - b * ρ)) := by
    have hless : b * ρ ≤ ρ := mul_le_of_le_one_left hρ hone
    have := mul_le_mul_of_nonneg_left (by linarith : -(1 / 20) ≤ 1 - b * ρ) hρ
    exact mul_nonneg (sub_nonneg.mpr hone) (by linarith)
  calc ρ ^ 2 * b ≤ 4 / 15 * (1 + ρ) ^ 2 * b := by gcongr
    _ ≤ 4 / 15 * ((1 + ρ * (1 + b) / 2) * (1 + b * ρ)) := by linarith
    _ ≤ 4 / 15 * (reachRatio b ρ * (1 + b * ρ)) := by gcongr

end Forward

/-! ### A short way back -/

section Backward

variable (hlow : -(21 / 100) ≤ ρ) (hρ : ρ ≤ 0)
include hb hlow hρ

theorem mul_nonpos_bounds : -(21 / 100 * b) ≤ b * ρ ∧ b * ρ ≤ 0 :=
  ⟨by linarith [mul_le_mul_of_nonneg_left hlow hb], mul_nonpos_of_nonneg_of_nonpos hb hρ⟩

include hone

theorem widening_ge_of_nonpos : 29 / 50 ≤ widening b ρ ∧ widening b ρ ≤ 1 := by
  obtain ⟨hzLow, hz⟩ := mul_nonpos_bounds hb hlow hρ
  have hfactor : 0 ≤ (1 + 3 * b) / 2 * (1 + b * ρ / 2) := mul_nonneg (by linarith) (by linarith)
  have hfactorLe : (1 + 3 * b) / 2 * (1 + b * ρ / 2) ≤ 2 * 1 :=
    mul_le_mul (by linarith) (by linarith) (by linarith) (by norm_num)
  have hdown := mul_le_mul_of_nonneg_left hlow hfactor
  have hup := mul_nonpos_of_nonneg_of_nonpos hfactor hρ
  unfold widening
  constructor
  · linarith
  · linarith

theorem mul_sq_le_widening_of_nonpos : 17 / 20 * (1 + b * ρ) ^ 2 ≤ widening b ρ := by
  obtain ⟨hzLow, hz⟩ := mul_nonpos_bounds hb hlow hρ
  have hrest : -(21 / 200 * (1 - b)) ≤ (1 - b) * (ρ * (2 + b * ρ) / 4) := by
    have hturn : -(21 / 50) ≤ ρ * (2 + b * ρ) := by nlinarith
    have := mul_le_mul_of_nonneg_left hturn (sub_nonneg.mpr hone)
    linarith
  rw [widening_eq]
  linarith [sq_nonneg (b * ρ)]

/-- As `pullRatio_mul_le`, on the way back. -/
theorem pullRatio_mul_le_of_nonpos : pullRatio b ρ * (1 + ρ) ≤ 1 + ρ ^ 2 / 4 := by
  have hw := (widening_ge_of_nonpos hb hone hlow hρ).1
  have hcoeff₃ : 0 ≤ 1 / 4 + b - 3 / 2 * b ^ 2 + 5 / 4 * b ^ 3 := by
    have : 0 ≤ b * (1 - b * (3 / 2 - 5 / 4 * b)) := mul_nonneg hb (by nlinarith)
    linarith
  have hcoeff₂ : 0 ≤ 1 / 2 - b + 3 / 4 * b ^ 2 +
      ρ * (1 / 4 + b - 3 / 2 * b ^ 2 + 5 / 4 * b ^ 3) := by
    have := mul_le_mul_of_nonneg_right hlow hcoeff₃
    nlinarith [sq_nonneg (b - 4 / 5), mul_nonneg hb (sq_nonneg (b - 4 / 5))]
  have hcoeff₄ : 0 ≤ 1 / 16 + b / 2 + b ^ 2 - 5 / 8 * b ^ 3 + 9 / 16 * b ^ 4 +
      ρ * (b * (1 / 16 + 3 / 8 * b + 9 / 16 * b ^ 2)) := by
    have := mul_le_mul_of_nonneg_right hlow
      (by positivity : 0 ≤ b * (1 / 16 + 3 / 8 * b + 9 / 16 * b ^ 2))
    nlinarith [pow_nonneg hb 2, pow_nonneg hb 3, pow_nonneg hb 4,
      mul_nonneg hb (sub_nonneg.mpr hone)]
  have hdiff : (1 + ρ ^ 2 / 4) * widening b ρ ^ 2 - (1 + b * ρ) ^ 3 * (1 + ρ) =
      (1 / 2 - b + 3 / 4 * b ^ 2 + ρ * (1 / 4 + b - 3 / 2 * b ^ 2 + 5 / 4 * b ^ 3)) * ρ ^ 2 +
      (1 / 16 + b / 2 + b ^ 2 - 5 / 8 * b ^ 3 + 9 / 16 * b ^ 4 +
        ρ * (b * (1 / 16 + 3 / 8 * b + 9 / 16 * b ^ 2))) * ρ ^ 4 +
      b ^ 2 * (1 / 64 + 3 / 32 * b + 9 / 64 * b ^ 2) * ρ ^ 6 := by
    unfold widening
    ring
  have hρFour : 0 ≤ ρ ^ 4 := by positivity
  have hρSix : 0 ≤ ρ ^ 6 := by positivity
  rw [pullRatio, div_mul_eq_mul_div, div_le_iff₀ (by positivity), ← sub_nonneg, hdiff]
  positivity

/-- The bound of the same product from below. -/
theorem le_pullRatio_mul_of_nonpos : 1 - 2 / 5 * ρ ^ 2 ≤ pullRatio b ρ * (1 + ρ) := by
  have hw := (widening_ge_of_nonpos hb hone hlow hρ).1
  have hcoeff₃ : 0 ≤ 2 / 5 + 19 / 20 * b + 3 / 2 * b ^ 2 - 5 / 4 * b ^ 3 := by
    have : 0 ≤ b ^ 2 * (3 / 2 - 5 / 4 * b) := mul_nonneg (sq_nonneg b) (by linarith)
    linarith
  have hcoeff₂ : 0 ≤ 3 / 20 + b - 3 / 4 * b ^ 2 +
      ρ * (2 / 5 + 19 / 20 * b + 3 / 2 * b ^ 2 - 5 / 4 * b ^ 3) := by
    have := mul_le_mul_of_nonneg_right hlow hcoeff₃
    nlinarith [mul_nonneg hb (sub_nonneg.mpr hone), pow_nonneg hb 3]
  have hcoeff₄ : 0 ≤ 1 / 10 + 4 / 5 * b + 23 / 16 * b ^ 2 + 5 / 8 * b ^ 3 - 9 / 16 * b ^ 4 +
      ρ * (b * (1 / 10 + 3 / 5 * b + 9 / 10 * b ^ 2)) := by
    have := mul_le_mul_of_nonneg_right hlow
      (by positivity : 0 ≤ b * (1 / 10 + 3 / 5 * b + 9 / 10 * b ^ 2))
    linarith [pow_nonneg hb 2, pow_nonneg hb 3, mul_nonneg (pow_nonneg hb 3) (sub_nonneg.mpr hone)]
  have hdiff : (1 + ρ) * (1 + b * ρ) ^ 3 - (1 - 2 / 5 * ρ ^ 2) * widening b ρ ^ 2 =
      (3 / 20 + b - 3 / 4 * b ^ 2 +
        ρ * (2 / 5 + 19 / 20 * b + 3 / 2 * b ^ 2 - 5 / 4 * b ^ 3)) * ρ ^ 2 +
      (1 / 10 + 4 / 5 * b + 23 / 16 * b ^ 2 + 5 / 8 * b ^ 3 - 9 / 16 * b ^ 4 +
        ρ * (b * (1 / 10 + 3 / 5 * b + 9 / 10 * b ^ 2))) * ρ ^ 4 +
      b ^ 2 * (1 / 40 + 3 / 20 * b + 9 / 40 * b ^ 2) * ρ ^ 6 := by
    unfold widening
    ring
  have hρFour : 0 ≤ ρ ^ 4 := by positivity
  have hρSix : 0 ≤ ρ ^ 6 := by positivity
  rw [pullRatio, mul_comm (_ / widening b ρ ^ 2), ← mul_div_assoc, le_div_iff₀ (by positivity),
    ← sub_nonneg, hdiff]
  positivity

/-- The reach shrinks by no more than one and a half times the step. -/
theorem le_reachRatio_of_nonpos : 1 + 3 / 2 * ρ ≤ reachRatio b ρ := by
  obtain ⟨hzLow, hz⟩ := mul_nonpos_bounds hb hlow hρ
  obtain ⟨hw, hwOne⟩ := widening_ge_of_nonpos hb hone hlow hρ
  have hden : 0 < 1 + b * (widening b ρ - 1) := by
    have := mul_le_mul_of_nonneg_left hw hb
    linarith
  have hdiff : (1 + b * ρ) * widening b ρ - (1 + 3 / 2 * ρ) * (1 + b * (widening b ρ - 1)) =
      (1 - b) * (widening b ρ - 1 - 3 / 2 * ρ) - widening b ρ * (b * ρ) / 2 := by ring
  have hwide : ρ * (3 * b - 2) / 2 ≤ widening b ρ - 1 - 3 / 2 * ρ := by
    have : 0 ≤ (1 + 3 * b) * (b * ρ ^ 2) := by positivity
    unfold widening
    linarith
  have hscaled := mul_le_mul_of_nonneg_left hwide (sub_nonneg.mpr hone)
  have hkept := mul_le_mul_of_nonneg_right hw (neg_nonneg.mpr hz)
  have hsum : 0 ≤ -ρ * (3 * (b - 3 / 4) ^ 2 + 1 / 20 * b + 1 / 4) :=
    mul_nonneg (neg_nonneg.mpr hρ) (by positivity)
  rw [reachRatio, le_div_iff₀ hden]
  linarith

end Backward

/-- Neither the invariant nor the gap changes its sign. -/
theorem widening_pos (hb : 0 ≤ b) (hone : b ≤ 1) (hlow : -(21 / 100) ≤ ρ) :
    0 < 1 + b * ρ ∧ 0 < widening b ρ := by
  have hback := mul_le_mul_of_nonneg_left hlow hb
  refine ⟨by linarith, ?_⟩
  rcases le_total 0 ρ with hρ | hρ
  · exact one_pos.trans_le (one_le_widening hb hρ)
  · linarith [(widening_ge_of_nonpos hb hone hlow hρ).1]

end Ratios

/-! ### A step along the curve -/

/-- What a step of Newton's method sees of the curve: the room that the sum of the balances leaves
above the invariant, the coefficient of the sum, the length over which the coefficient would fall by
its own size, the invariant, and what its square lacks of the product of the balances. -/
structure Tangent where
  room : ℚ
  pull : ℚ
  reach : ℚ
  size : ℚ
  lack : ℚ

namespace Tangent

/-- The value of `F`. -/
def value (t : Tangent) : ℚ := t.pull * t.room - t.lack

/-- What `F` would lose over a whole reach, at its present slope. -/
def span (t : Tangent) : ℚ := t.pull * (t.room + t.reach) + t.reach * t.size / 2

/-- The same after a step of `ρ` reaches, over which the coefficient changes by the factor `π` and
the reach by the factor `l`. -/
def move (t : Tangent) (ρ π l : ℚ) : Tangent where
  room := t.room - ρ * t.reach
  pull := π * t.pull
  reach := l * t.reach
  size := t.size + ρ * t.reach
  lack := t.lack + ρ * t.reach * t.size / 2 + (ρ * t.reach) ^ 2 / 4

/-- What the coefficient's part of `F` turns away from the tangent over the step. -/
def turn (t : Tangent) (ρ π : ℚ) : ℚ :=
  t.pull * t.room * (π - 1 + ρ) + t.reach * t.pull * ((1 - π) * ρ)

/-- The coefficient and the reach are positive, and the reach is a part of the invariant. -/
structure Regular (t : Tangent) : Prop where
  pull_pos : 0 < t.pull
  reach_pos : 0 < t.reach
  reach_le : t.reach ≤ t.size

/-- A step of `ρ` reaches follows the tangent, up to a hundredth of the step. -/
def Follows (t : Tangent) (ρ : ℚ) : Prop := |ρ * t.span - t.value| ≤ |ρ| * t.span / 100

variable {t : Tangent} {ρ π l : ℚ}

theorem Regular.size_pos (ht : t.Regular) : 0 < t.size := ht.reach_pos.trans_le ht.reach_le

/-- The new value: what the two parts of `F` turn away from the tangent, and what the step is off
it. -/
theorem value_move (t : Tangent) (ρ π l : ℚ) : (t.move ρ π l).value =
    t.turn ρ π - (ρ * t.reach) ^ 2 / 4 - (ρ * t.span - t.value) := by
  simp only [value, span, move, turn]
  ring

section Follows

variable (h : t.Follows ρ)
include h

theorem Follows.mul_span_le (hρ : 0 ≤ ρ) :
    99 / 100 * (ρ * t.span) ≤ t.value ∧ t.value ≤ 101 / 100 * (ρ * t.span) := by
  obtain ⟨hlow, hhigh⟩ := abs_le.mp h
  rw [abs_of_nonneg hρ] at hlow hhigh
  exact ⟨by linarith, by linarith⟩

theorem Follows.mul_span_le_of_nonpos (hρ : ρ ≤ 0) :
    101 / 100 * (ρ * t.span) ≤ t.value ∧ t.value ≤ 99 / 100 * (ρ * t.span) := by
  obtain ⟨hlow, hhigh⟩ := abs_le.mp h
  rw [abs_of_nonpos hρ] at hlow hhigh
  exact ⟨by linarith, by linarith⟩

/-- A step goes forward exactly where the value is positive. -/
theorem Follows.pos_iff (hspan : 0 < t.span) : 0 < ρ ↔ 0 < t.value := by
  constructor
  · intro hρ
    have hstep := mul_pos hρ hspan
    linarith [(h.mul_span_le hρ.le).1]
  · intro hvalue
    by_contra hneg
    have hstep := mul_nonpos_of_nonpos_of_nonneg (not_lt.mp hneg) hspan.le
    linarith [(h.mul_span_le_of_nonpos (not_lt.mp hneg)).2]

/-- A step is no longer than the value asks for. -/
theorem Follows.abs_le {q : ℚ} (hspan : 0 < t.span) (hsmall : |t.value| ≤ q * t.span) :
    |ρ| ≤ 100 / 99 * q := by
  refine le_of_mul_le_mul_right ?_ hspan
  have habs := abs_sub_abs_le_abs_sub (ρ * t.span) t.value
  rw [abs_mul, abs_of_pos hspan] at habs
  unfold Follows at h
  linarith

/-- Where the odds of the rest of the span against the value are at least `o`, the length of the
step adds to them. -/
theorem Follows.odds_le {o : ℚ} (hspan : 0 < t.span) (hvalue : 0 < t.value) (ho : 0 < o)
    (hodds : o * t.value ≤ t.span - t.value) :
    o * (1 + 99 / 200 / (1 + o)) * t.value ≤ (1 + ρ / 2) * (t.span - t.value) := by
  have hρ := (h.pos_iff hspan).mpr hvalue
  have hrest : 0 ≤ t.span - t.value := le_trans (by positivity) hodds
  have hstepped : 99 / 100 * (o * t.value) ≤ ρ * (t.span - t.value) * (1 + o) := by
    refine le_of_mul_le_mul_right ?_ hspan
    have hlong := mul_le_mul_of_nonneg_right (h.mul_span_le hρ.le).2
      (mul_nonneg hrest (by positivity : 0 ≤ 1 + o))
    have hscaled := mul_le_mul_of_nonneg_left hodds hvalue.le
    have hkept : 0 ≤ o * t.value * t.span := by positivity
    linarith
  have hgain : 99 / 100 * (o * t.value) / (1 + o) ≤ ρ * (t.span - t.value) :=
    (div_le_iff₀ (by positivity)).mpr hstepped
  calc o * (1 + 99 / 200 / (1 + o)) * t.value
      = o * t.value + 1 / 2 * (99 / 100 * (o * t.value) / (1 + o)) := by
        field_simp
        ring
    _ ≤ (1 + ρ / 2) * (t.span - t.value) := by linarith

end Follows

/-! ### Forward, up to a whole reach -/

/-- What a step forward does to the coefficient and to the reach. -/
structure Ahead (t : Tangent) (ρ π l : ℚ) : Prop where
  nonneg : 0 ≤ ρ
  le : ρ ≤ 21 / 20
  mul_pull_le : (1 + ρ / 2) * π ≤ 1
  one_le_sq_mul_pull : 1 ≤ (1 + ρ / 2) ^ 2 * π
  le_reach : 1 + ρ / 2 ≤ l
  cube_mul_pull_le : (1 + ρ / 2) ^ 3 * π * t.size ≤ l * (t.size + ρ * t.reach)
  sq_mul_reach_le : ρ ^ 2 * t.reach ≤ 4 / 15 * (l * (t.size + ρ * t.reach))

section Ahead

variable (h : t.Ahead ρ π l) (ht : t.Regular)
include h

theorem Ahead.pull_pos : 0 < π := by
  have hle := h.one_le_sq_mul_pull
  have hρ := h.nonneg
  by_contra hneg
  have hprod := mul_nonneg (by positivity : 0 ≤ (1 + ρ / 2) ^ 2) (sub_nonneg.mpr (not_lt.mp hneg))
  linarith

theorem Ahead.pull_le_one : π ≤ 1 := by
  have hle := h.mul_pull_le
  have hpos := mul_nonneg h.nonneg h.pull_pos.le
  linarith

/-- The coefficient loses no more than its rate says. -/
theorem Ahead.one_sub_le_pull : 1 - ρ ≤ π := by
  have hρ := h.nonneg
  refine le_of_mul_le_mul_left ?_ (by positivity : 0 < (1 + ρ / 2) ^ 2)
  refine le_trans ?_ h.one_le_sq_mul_pull
  linarith [pow_nonneg hρ 3, sq_nonneg ρ]

theorem Ahead.pull_ge : 21 / 50 ≤ π := by
  have hρ := h.nonneg
  have hρOne := h.le
  have hsq : (1 + ρ / 2) ^ 2 ≤ 233 / 100 := by nlinarith
  have hscaled := mul_le_mul_of_nonneg_right hsq h.pull_pos.le
  linarith [h.one_le_sq_mul_pull]

include ht

theorem Ahead.turn_nonneg (hroom : 0 ≤ t.room) : 0 ≤ t.turn ρ π := by
  have hp := ht.pull_pos
  have hreach := ht.reach_pos
  have hρ := h.nonneg
  have hloses := sub_nonneg.mpr h.pull_le_one
  have hkeeps : 0 ≤ π - 1 + ρ := by linarith [h.one_sub_le_pull]
  unfold turn
  positivity

/-- The reach grows by more than the step takes of it. -/
theorem Ahead.room_add_reach_ge : t.room + 19 / 40 * t.reach ≤
    (t.move ρ π l).room + (t.move ρ π l).reach := by
  have hgrown := mul_le_mul_of_nonneg_right
    (by linarith [h.le_reach, h.le] : 19 / 40 ≤ l - ρ) ht.reach_pos.le
  simp only [move]
  linarith

theorem Ahead.reach_mul_size_ge :
    t.reach * t.size ≤ (t.move ρ π l).reach * (t.move ρ π l).size := by
  have hreach := ht.reach_pos
  have hsize := ht.size_pos
  have hl : 1 ≤ l := by linarith [h.le_reach, h.nonneg]
  have hgrown := mul_nonneg h.nonneg hreach.le
  calc t.reach * t.size ≤ l * t.reach * (t.size + ρ * t.reach) :=
        mul_le_mul (le_mul_of_one_le_left hreach.le hl) (by linarith) hsize.le (by positivity)
    _ = (t.move ρ π l).reach * (t.move ρ π l).size := rfl

/-- The product of reach and invariant grows, over the part of the coefficient, by at least the
third power of `1 + ρ / 2`. -/
theorem Ahead.cube_growth (hroom : 0 ≤ t.room) :
    (t.move ρ π l).pull * (t.move ρ π l).room * (1 + ρ / 2) ^ 3 * (t.reach * t.size) ≤
      t.pull * t.room * ((t.move ρ π l).reach * (t.move ρ π l).size) := by
  have hp := ht.pull_pos
  have hreach := ht.reach_pos
  have hd := ht.size_pos
  have hρ := h.nonneg
  have hπ := h.pull_pos
  simp only [move]
  have hless : t.room - ρ * t.reach ≤ t.room := by
    have := mul_nonneg hρ hreach.le
    linarith
  calc π * t.pull * (t.room - ρ * t.reach) * (1 + ρ / 2) ^ 3 * (t.reach * t.size)
      ≤ π * t.pull * t.room * (1 + ρ / 2) ^ 3 * (t.reach * t.size) := by gcongr
    _ = t.pull * t.room * t.reach * ((1 + ρ / 2) ^ 3 * π * t.size) := by ring
    _ ≤ t.pull * t.room * t.reach * (l * (t.size + ρ * t.reach)) :=
        mul_le_mul_of_nonneg_left h.cube_mul_pull_le (by positivity)
    _ = t.pull * t.room * (l * t.reach * (t.size + ρ * t.reach)) := by ring

/-- The value falls at least as fast as the coefficient. -/
theorem Ahead.value_move_le (hlack : 0 ≤ t.lack) : (t.move ρ π l).value ≤ π * t.value := by
  have hp := ht.pull_pos
  have hreach := ht.reach_pos
  have hd := ht.size_pos
  have hρ := h.nonneg
  have hπ := h.pull_pos
  have hless : π * t.pull * (t.room - ρ * t.reach) ≤ π * t.pull * t.room := by
    gcongr
    linarith [mul_nonneg hρ hreach.le]
  have hkept := mul_le_mul_of_nonneg_right h.pull_le_one hlack
  have hgain : 0 ≤ ρ * t.reach * t.size / 2 + (ρ * t.reach) ^ 2 / 4 := by positivity
  simp only [value, move]
  linarith

/-- The rest of the span falls more slowly than the coefficient, by the factor `1 + ρ / 2`. -/
theorem Ahead.rest_move_ge (hlack : 0 ≤ t.lack) :
    π * ((1 + ρ / 2) * (t.span - t.value)) ≤ (t.move ρ π l).span - (t.move ρ π l).value := by
  have hp := ht.pull_pos
  have hreach := ht.reach_pos
  have hd := ht.size_pos
  have hρ := h.nonneg
  have hπ := h.pull_pos
  have hturned : π * ((1 + ρ / 2) * (t.reach * t.pull)) ≤ l * t.reach * (π * t.pull) := by
    calc π * ((1 + ρ / 2) * (t.reach * t.pull)) = (1 + ρ / 2) * t.reach * (π * t.pull) := by ring
      _ ≤ l * t.reach * (π * t.pull) := by
          have := h.le_reach
          gcongr
  have hsquare : π * ((1 + ρ / 2) * (t.reach * t.size)) ≤
      (t.move ρ π l).reach * (t.move ρ π l).size := by
    calc π * ((1 + ρ / 2) * (t.reach * t.size)) = (1 + ρ / 2) * π * (t.reach * t.size) := by ring
      _ ≤ 1 * (t.reach * t.size) := mul_le_mul_of_nonneg_right h.mul_pull_le (by positivity)
      _ ≤ (t.move ρ π l).reach * (t.move ρ π l).size := by
          rw [one_mul]
          exact h.reach_mul_size_ge ht
  have hlacked : π * ((1 + ρ / 2) * t.lack) ≤ t.lack := by
    have := mul_le_mul_of_nonneg_right h.mul_pull_le hlack
    linarith
  have hgain : 0 ≤ ρ * t.reach * t.size / 2 + (ρ * t.reach) ^ 2 / 4 := by positivity
  simp only [span, value, move] at hsquare ⊢
  linarith

/-- The odds of the rest of the span against the value grow by the factor `1 + ρ / 2`. -/
theorem Ahead.odds_growth (hlack : 0 ≤ t.lack) (hvalue : 0 ≤ t.value) :
    (1 + ρ / 2) * (t.span - t.value) * (t.move ρ π l).value ≤
      ((t.move ρ π l).span - (t.move ρ π l).value) * t.value := by
  have hρ := h.nonneg
  have hrest : 0 ≤ t.span - t.value := by
    have hturn := mul_pos ht.reach_pos ht.pull_pos
    have hsquare := mul_pos ht.reach_pos ht.size_pos
    simp only [span, value]
    linarith
  calc (1 + ρ / 2) * (t.span - t.value) * (t.move ρ π l).value
      ≤ (1 + ρ / 2) * (t.span - t.value) * (π * t.value) :=
        mul_le_mul_of_nonneg_left (h.value_move_le ht hlack) (by positivity)
    _ = π * ((1 + ρ / 2) * (t.span - t.value)) * t.value := by ring
    _ ≤ ((t.move ρ π l).span - (t.move ρ π l).value) * t.value :=
        mul_le_mul_of_nonneg_right (h.rest_move_ge ht hlack) hvalue

/-- The span keeps a sixth. -/
theorem Ahead.span_le (hroom : 0 ≤ t.room) : t.span ≤ 6 * (t.move ρ π l).span := by
  have hp := ht.pull_pos
  have hreach := ht.reach_pos
  have hsquare := h.reach_mul_size_ge ht
  have hpart : 1 / 6 * (t.pull * (t.room + t.reach)) ≤
      (t.move ρ π l).pull * ((t.move ρ π l).room + (t.move ρ π l).reach) := by
    calc 1 / 6 * (t.pull * (t.room + t.reach))
        ≤ 21 / 50 * t.pull * (t.room + 19 / 40 * t.reach) := by
          have hfirst := mul_nonneg hp.le hroom
          have hsecond := mul_nonneg hp.le hreach.le
          linarith
      _ ≤ (t.move ρ π l).pull * ((t.move ρ π l).room + (t.move ρ π l).reach) :=
          mul_le_mul (mul_le_mul_of_nonneg_right h.pull_ge hp.le) (h.room_add_reach_ge ht)
            (by positivity) (mul_nonneg h.pull_pos.le hp.le)
  have hsquarePos := mul_pos hreach ht.size_pos
  unfold span
  linarith

/-- A step that follows the tangent passes the root by no more than a fifth of the new span. -/
theorem Ahead.value_ge (hroom : 0 ≤ t.room) (hfollows : t.Follows ρ) :
    -((t.move ρ π l).span / 5) ≤ (t.move ρ π l).value := by
  have hp := ht.pull_pos
  have hreach := ht.reach_pos
  have hρ := h.nonneg
  have hspan := h.span_le ht hroom
  have hspanPos : 0 ≤ t.span := by
    have hd := ht.size_pos
    unfold span
    positivity
  have hoff : ρ * t.span - t.value ≤ 63 / 1000 * (t.move ρ π l).span := by
    have hnear := (abs_le.mp hfollows).2
    have hshort := mul_le_mul_of_nonneg_right h.le hspanPos
    rw [abs_of_nonneg hρ] at hnear
    linarith
  have hsquare : (ρ * t.reach) ^ 2 / 4 ≤ 2 / 15 * (t.move ρ π l).span := by
    have hsq := mul_le_mul_of_nonneg_right h.sq_mul_reach_le hreach.le
    have hforward : 0 ≤ (t.move ρ π l).room + (t.move ρ π l).reach := by
      linarith [h.room_add_reach_ge ht]
    have hpart : 0 ≤ (t.move ρ π l).pull * ((t.move ρ π l).room + (t.move ρ π l).reach) :=
      mul_nonneg (mul_nonneg h.pull_pos.le hp.le) hforward
    simp only [span, move] at hpart ⊢
    linarith
  have hnextPos : 0 ≤ (t.move ρ π l).span := by linarith
  rw [value_move]
  linarith [h.turn_nonneg ht hroom]

/-- A step that follows the tangent passes the sum of the balances by no more than a tenth of the
new reach. -/
theorem Ahead.room_ge (hroom : 0 ≤ t.room) (hlack : -t.lack ≤ 51 / 100 * (t.size * t.room))
    (hfollows : t.Follows ρ) : -((t.move ρ π l).reach / 10) ≤ (t.move ρ π l).room := by
  have hp := ht.pull_pos
  have hreach := ht.reach_pos
  have hd := ht.size_pos
  have hρ := h.nonneg
  have hbefore : 99 / 100 * (ρ * t.reach) ≤ 51 / 50 * t.room := by
    have hstep := (hfollows.mul_span_le hρ).1
    have hspan : (t.pull + t.size / 2) * t.reach ≤ t.span := by
      unfold span
      linarith [mul_nonneg hp.le hroom]
    have hscaled := mul_le_mul_of_nonneg_left hspan hρ
    refine le_of_mul_le_mul_left ?_ (by positivity : 0 < t.pull + t.size / 2)
    unfold value at hstep
    linarith [mul_nonneg hp.le hroom]
  have hfar := mul_le_mul_of_nonneg_right h.le hreach.le
  have hgrown := mul_le_mul_of_nonneg_right h.le_reach hreach.le
  have hnonneg := mul_nonneg hρ hreach.le
  simp only [move]
  linarith

end Ahead

/-! ### A short step, forward or back -/

/-- What a short step does to the coefficient and to the reach. -/
structure Near (t : Tangent) (ρ π l : ℚ) : Prop where
  neg_le : -(21 / 100) ≤ ρ
  le : ρ ≤ 31 / 100
  pull_mul_le : π * (1 + ρ) ≤ 1 + ρ ^ 2 / 4
  le_pull_mul : 1 - 2 / 5 * ρ ^ 2 ≤ π * (1 + ρ)
  reach_ge : 4 / 5 ≤ l - ρ
  size_le : t.size ≤ 2 * l * (t.size + ρ * t.reach)

section Near

variable (h : t.Near ρ π l) (ht : t.Regular) (hroom : -(t.reach / 10) ≤ t.room)

section Scalar

include h

theorem Near.sq_le : ρ ^ 2 ≤ 1 / 10 := by
  have hlow := h.neg_le
  have hhigh := h.le
  nlinarith

theorem Near.one_add_pos : 0 < 1 + ρ := by linarith [h.neg_le]

/-- What the coefficient is off `1 / (1 + ρ)`, times the step. -/
theorem Near.abs_turn_le : |ρ * (1 - π * (1 + ρ))| ≤ 31 / 250 * ρ ^ 2 := by
  have hsq := sq_nonneg ρ
  have hfirst : |ρ| ≤ 31 / 100 := abs_le.mpr ⟨by linarith [h.neg_le], h.le⟩
  have hsecond : |1 - π * (1 + ρ)| ≤ 2 / 5 * ρ ^ 2 :=
    abs_le.mpr ⟨by linarith [h.pull_mul_le], by linarith [h.le_pull_mul]⟩
  rw [abs_mul]
  calc |ρ| * |1 - π * (1 + ρ)| ≤ 31 / 100 * (2 / 5 * ρ ^ 2) :=
        mul_le_mul hfirst hsecond (abs_nonneg _) (by norm_num)
    _ = 31 / 250 * ρ ^ 2 := by ring

theorem Near.pull_ge : 18 / 25 ≤ π := by
  have hlow := h.neg_le
  have hhigh := h.le
  have hsq := h.sq_le
  have hge := h.le_pull_mul
  nlinarith

end Scalar

include ht hroom in
/-- Where the invariant is above the sum of the balances by a tenth of the reach at most, a term
with the reach outweighs one with the room that has at most ten times its factor. -/
theorem combine_nonneg (c e : ℚ) (hc : 0 ≤ c) (hce : c / 10 ≤ e) :
    0 ≤ t.pull * t.room * c + t.reach * t.pull * e := by
  have hp := ht.pull_pos
  have hreach := ht.reach_pos
  have hfirst := mul_le_mul_of_nonneg_right (mul_le_mul_of_nonneg_left hroom hp.le) hc
  have hsecond := mul_le_mul_of_nonneg_left hce (mul_pos hreach hp).le
  linarith

include h ht hroom

/-- The span keeps a half. -/
theorem Near.span_le : t.span ≤ 2 * (t.move ρ π l).span := by
  have hπ := h.pull_ge
  have hsize := mul_le_mul_of_nonneg_left h.size_le ht.reach_pos.le
  have hreach : (2 * π - 1) / 10 ≤ 2 * π * (l - ρ) - 1 := by
    have := mul_le_mul_of_nonneg_left h.reach_ge (by linarith : 0 ≤ 2 * π)
    linarith
  have hpart := combine_nonneg ht hroom _ _ (by linarith) hreach
  simp only [span, move]
  linarith

/-- The coefficient's part of `F` does not turn below the tangent. -/
theorem Near.turn_nonneg : 0 ≤ t.turn ρ π := by
  have hgain := h.one_add_pos
  have hsq := h.sq_le
  obtain ⟨hturnLow, hturnHigh⟩ := abs_le.mp h.abs_turn_le
  refine combine_nonneg ht hroom _ _ ?_ ?_
  · refine nonneg_of_mul_nonneg_right ?_ hgain
    linarith [h.le_pull_mul, sq_nonneg ρ]
  · refine le_of_mul_le_mul_left ?_ hgain
    linarith [h.pull_mul_le, h.le_pull_mul, sq_nonneg ρ]

/-- It turns by at most twice the square of the step. -/
theorem Near.turn_le : t.turn ρ π ≤
    2 * ρ ^ 2 * ((t.move ρ π l).pull * ((t.move ρ π l).room + (t.move ρ π l).reach)) := by
  have hgain := h.one_add_pos
  have hπ := h.pull_ge
  have hsqNonneg := sq_nonneg ρ
  obtain ⟨hturnLow, hturnHigh⟩ := abs_le.mp h.abs_turn_le
  have hup := h.pull_mul_le
  have hdown := h.le_pull_mul
  have hdownSq := mul_le_mul_of_nonneg_right hdown (mul_nonneg zero_le_two hsqNonneg)
  have hupSq := mul_le_mul_of_nonneg_right hup (mul_nonneg zero_le_two hsqNonneg)
  have hfour := mul_le_mul_of_nonneg_right h.sq_le hsqNonneg
  have hreach := mul_le_mul_of_nonneg_left h.reach_ge
    (by positivity : 0 ≤ 2 * ρ ^ 2 * (π * (1 + ρ)))
  -- The difference of the two sides, as a term with the room and one with the reach.
  have hrest := combine_nonneg ht hroom (2 * ρ ^ 2 * π - (π - 1 + ρ))
    (2 * ρ ^ 2 * π * (l - ρ) - (1 - π) * ρ) ?_ ?_
  · simp only [turn, move]
    linarith
  · refine nonneg_of_mul_nonneg_right ?_ hgain
    linarith
  · refine le_of_mul_le_mul_left ?_ hgain
    linarith

omit hroom in
/-- The square's part of `F` turns by at most twice the square of the step, too. -/
theorem Near.square_le : (ρ * t.reach) ^ 2 / 4 ≤
    2 * ρ ^ 2 * ((t.move ρ π l).reach * (t.move ρ π l).size / 2) := by
  have hreach : t.reach ≤ 4 * l * (t.size + ρ * t.reach) := by
    have hsize := ht.size_pos
    linarith [h.size_le, ht.reach_le]
  have hscaled := mul_le_mul_of_nonneg_left hreach (mul_nonneg (sq_nonneg ρ) ht.reach_pos.le)
  simp only [move]
  linarith

/-- A short step that follows the tangent leaves a value of the order of its square. -/
theorem Near.abs_value_le (hfollows : t.Follows ρ) :
    |(t.move ρ π l).value| ≤ (2 * ρ ^ 2 + |ρ| / 50) * (t.move ρ π l).span := by
  have hturn := h.turn_nonneg ht hroom
  have hturnLe := h.turn_le ht hroom
  have hsquare := h.square_le ht
  have hsquareNonneg := sq_nonneg (ρ * t.reach)
  obtain ⟨hoffLow, hoffHigh⟩ := abs_le.mp hfollows
  have hspan := mul_le_mul_of_nonneg_left (h.span_le ht hroom) (abs_nonneg ρ)
  have hsplit : (2 * ρ ^ 2 + |ρ| / 50) * (t.move ρ π l).span =
      2 * ρ ^ 2 * ((t.move ρ π l).pull * ((t.move ρ π l).room + (t.move ρ π l).reach)) +
      2 * ρ ^ 2 * ((t.move ρ π l).reach * (t.move ρ π l).size / 2) +
      |ρ| * (2 * (t.move ρ π l).span) / 100 := by
    unfold span
    ring
  rw [hsplit, value_move, abs_le]
  constructor
  · linarith
  · linarith

end Near

end Tangent

end ConcentratedPool
