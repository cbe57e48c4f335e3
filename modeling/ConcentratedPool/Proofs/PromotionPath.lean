import ConcentratedPool.Proofs.PromotionLine
import Mathlib.Data.Rat.Floor
import Mathlib.Order.Interval.Set.UnorderedInterval
import Mathlib.Order.Lattice.Nat

/-!
# The path of a promotion

Over all times the curve parameters of a promotion follow a line between two rests.
`Promotion.share` is the part of the way that is behind at a time, clamped to the interval from zero
to one, and each parameter is the mean of both ends with that weight, rounded down to 18 places
(`Promotion.raw_effective`). So whatever is true of the share is true of both parameters, the one
that rises and the one that falls: the share does not decrease, and it stays in its interval.

`Promotion.effective_path` collects the boundary cases, the line in between, the order of the values
and their range. An empty window belongs to it: there is no time in between then, and no division.
-/

set_option autoImplicit false
set_option relaxedAutoImplicit false

namespace ConcentratedPool.Promotion

variable {p : Promotion} {k : CurveParameter} {t u : ℤ}

/-! ### The part of the way -/

/-- The part of the way from the initial to the future parameters that is behind at a time: none
until the start, and all from the end on. -/
def share (p : Promotion) (t : ℤ) : ℚ :=
  if p.futureTime ≤ t then 1
  else (max 0 (t - p.initialTime) : ℤ) / (p.futureTime - p.initialTime : ℤ)

section Share

variable (hordered : p.initialTime ≤ p.futureTime)

include hordered

theorem window_nonneg : (0 : ℚ) ≤ (p.futureTime - p.initialTime : ℤ) := by
  exact_mod_cast sub_nonneg.mpr hordered

theorem share_nonneg : 0 ≤ p.share t := by
  unfold share
  split_ifs
  · exact zero_le_one
  · refine div_nonneg ?_ (window_nonneg hordered)
    exact_mod_cast le_max_left 0 (t - p.initialTime)

theorem share_le_one : p.share t ≤ 1 := by
  unfold share
  split_ifs with hafter
  · exact le_rfl
  · refine div_le_one_of_le₀ ?_ (window_nonneg hordered)
    exact_mod_cast (by omega : max 0 (t - p.initialTime) ≤ p.futureTime - p.initialTime)

/-- The way that is behind does not get shorter. -/
theorem share_mono (htu : t ≤ u) : p.share t ≤ p.share u := by
  by_cases hafter : p.futureTime ≤ u
  · have hall : p.share u = 1 := if_pos hafter
    rw [hall]
    exact share_le_one hordered
  · unfold share
    rw [if_neg hafter, if_neg (by omega)]
    refine div_le_div_of_nonneg_right ?_ (window_nonneg hordered)
    exact_mod_cast (by omega : max 0 (t - p.initialTime) ≤ max 0 (u - p.initialTime))

end Share

/-! ### The path -/

/-- The value of a parameter at a time without rounding, in units of the eighteenth place. -/
def path (p : Promotion) (k : CurveParameter) (t : ℤ) : ℚ :=
  (p.initial.value k).raw +
    ((p.future.value k).raw - (p.initial.value k).raw : ℚ) * p.share t

/-- In between, the path is the line. -/
theorem path_eq_line (hbefore : p.initialTime ≤ t) (hafter : t < p.futureTime) :
    p.path k t = p.line k (t - p.initialTime : ℤ) := by
  unfold path line share
  rw [if_neg (not_le.mpr hafter), max_eq_right (by omega), mul_div_assoc', div_mul_eq_mul_div]

/-- The curve parameters at every time are those of the path, rounded down. -/
theorem raw_effective (hordered : p.initialTime ≤ p.futureTime) (k : CurveParameter) (t : ℤ) :
    (((p.effective t).value k).raw : ℤ) = ⌊p.path k t⌋ := by
  by_cases hafter : p.futureTime ≤ t
  · have hpath : p.path k t = ((p.future.value k).raw : ℤ) := by
      unfold path share
      rw [if_pos hafter]
      push_cast
      ring
    rw [hpath, Int.floor_intCast, effective, if_pos hafter]
  by_cases hbefore : t ≤ p.initialTime
  · have hpath : p.path k t = ((p.initial.value k).raw : ℤ) := by
      unfold path share
      rw [if_neg hafter, max_eq_left (by omega), Int.cast_zero, zero_div, mul_zero, add_zero]
      rfl
    rw [hpath, Int.floor_intCast, effective, if_neg hafter, if_pos hbefore]
  · have helapsed : p.elapsed t = t - p.initialTime := min_eq_left (by omega)
    have hline := effective_le_line k (by omega : p.initialTime < p.futureTime) (by omega : _ ≤ t)
    rw [helapsed, ← path_eq_line (by omega) (by omega)] at hline
    rw [eq_comm, Int.floor_eq_iff, Int.cast_natCast]
    exact hline

/-- A parameter that is to rise never falls on the way. -/
theorem value_effective_mono (hordered : p.initialTime ≤ p.futureTime)
    (hrise : p.initial.value k ≤ p.future.value k) (htu : t ≤ u) :
    (p.effective t).value k ≤ (p.effective u).value k := by
  have hgain : (0 : ℚ) ≤ (p.future.value k).raw - (p.initial.value k).raw := by
    rw [sub_nonneg]
    exact_mod_cast Decimal.le_def.mp hrise
  rw [Decimal.le_def, ← Int.ofNat_le, raw_effective hordered, raw_effective hordered]
  refine Int.floor_mono (add_le_add_right ?_ _)
  exact mul_le_mul_of_nonneg_left (share_mono hordered htu) hgain

/-- A parameter that is to fall never rises on the way. -/
theorem value_effective_anti (hordered : p.initialTime ≤ p.futureTime)
    (hfall : p.future.value k ≤ p.initial.value k) (htu : t ≤ u) :
    (p.effective u).value k ≤ (p.effective t).value k := by
  have hloss : ((p.future.value k).raw - (p.initial.value k).raw : ℚ) ≤ 0 := by
    rw [sub_nonpos]
    exact_mod_cast Decimal.le_def.mp hfall
  rw [Decimal.le_def, ← Int.ofNat_le, raw_effective hordered, raw_effective hordered]
  refine Int.floor_mono (add_le_add_right ?_ _)
  exact mul_le_mul_of_nonpos_left (share_mono hordered htu) hloss

/-- The path does not leave the interval between both ends. -/
theorem path_mem (hordered : p.initialTime ≤ p.futureTime) (k : CurveParameter) (t : ℤ) :
    p.path k t ∈ Set.uIcc ((p.initial.value k).raw : ℚ) (p.future.value k).raw := by
  have hlow := share_nonneg hordered (t := t)
  have hhigh := share_le_one hordered (t := t)
  rw [Set.mem_uIcc]
  unfold path
  rcases le_total ((p.initial.value k).raw : ℚ) (p.future.value k).raw with hrise | hfall
  · left
    have hgain := mul_nonneg (sub_nonneg.mpr hrise) hlow
    have hpart := mul_le_of_le_one_right (sub_nonneg.mpr hrise) hhigh
    constructor <;> linarith
  · right
    have hloss := mul_nonneg (sub_nonneg.mpr hfall) hlow
    have hpart := mul_le_of_le_one_right (sub_nonneg.mpr hfall) hhigh
    constructor <;> linarith

/-- No value leaves that interval either, since both ends are whole numbers of units. -/
theorem raw_effective_mem (hordered : p.initialTime ≤ p.futureTime) (k : CurveParameter) (t : ℤ) :
    ((p.effective t).value k).raw ∈
      Set.uIcc (p.initial.value k).raw (p.future.value k).raw := by
  rw [Set.mem_uIcc, ← Int.ofNat_le, ← Int.ofNat_le, ← Int.ofNat_le, ← Int.ofNat_le,
    raw_effective hordered]
  rcases Set.mem_uIcc.mp (path_mem hordered k t) with ⟨hge, hle⟩ | ⟨hge, hle⟩
  · exact .inl ⟨Int.le_floor.mpr hge, (Int.floor_mono hle).trans_eq (Int.floor_natCast _)⟩
  · exact .inr ⟨Int.le_floor.mpr hge, (Int.floor_mono hle).trans_eq (Int.floor_natCast _)⟩

/-- The path of a promotion that does not end before its start. The future parameters are in force
from the end on, and the initial ones until the start. In between there is a window to divide by,
and each parameter is exactly the line, rounded down, which is always in the range of a decimal. At
no time does a parameter that is to rise fall, or one that is to fall rise, each by itself; and no
value leaves the interval between both ends. -/
theorem effective_path (p : Promotion) (hordered : p.initialTime ≤ p.futureTime) :
    (∀ t, p.futureTime ≤ t → p.effective t = p.future) ∧
    (∀ t, t ≤ p.initialTime → t < p.futureTime → p.effective t = p.initial) ∧
    (∀ t, p.initialTime < t → t < p.futureTime → p.futureTime - p.initialTime ≠ 0 ∧
      ∀ k, Decimal.ofRaw ⌊p.line k (t - p.initialTime : ℤ)⌋ = .ok ((p.effective t).value k)) ∧
    ∀ k,
      (p.initial.value k ≤ p.future.value k →
        ∀ t u, t ≤ u → (p.effective t).value k ≤ (p.effective u).value k) ∧
      (p.future.value k ≤ p.initial.value k →
        ∀ t u, t ≤ u → (p.effective u).value k ≤ (p.effective t).value k) ∧
      ∀ t, ((p.effective t).value k).raw ∈
        Set.uIcc (p.initial.value k).raw (p.future.value k).raw := by
  refine ⟨?_, ?_, ?_, ?_⟩
  · intro t hafter
    exact if_pos hafter
  · intro t hbefore hactive
    rw [effective, if_neg (not_le.mpr hactive), if_pos hbefore]
  · intro t hbefore hactive
    refine ⟨by omega, fun k ↦ ?_⟩
    rw [Decimal.ofRaw_eq_ok, ← path_eq_line hbefore.le hactive]
    exact raw_effective hordered k t
  · intro k
    exact ⟨fun hrise t u ↦ value_effective_mono hordered hrise,
      fun hfall t u ↦ value_effective_anti hordered hfall, raw_effective_mem hordered k⟩

/-- A promotion of which the amplification rises by a tenth and the concentration falls by a tenth, in
a day. -/
def opposed : Promotion where
  initial := ⟨⟨50 * Decimal.scale, by decide⟩, ⟨140_000_000_000_000, by decide⟩⟩
  future := ⟨⟨55 * Decimal.scale, by decide⟩, ⟨126_000_000_000_000, by decide⟩⟩
  initialTime := 1_000
  futureTime := 87_400

/-- One second before the end, the concentration is the line rounded down, by a part of a unit, and is
not at its future value yet; and the amplification has not fallen since one second after the start.
-/
theorem effective_path_opposed :
    opposed.initialTime ≤ opposed.futureTime ∧
      Decimal.ofRaw ⌊opposed.line .gamma (86_399 : ℤ)⌋ =
        .ok ((opposed.effective 87_399).value .gamma) ∧
      ((opposed.effective 87_399).value .gamma).raw = 126_000_162_037_037 ∧
      (opposed.effective 1_001).value .amp ≤ (opposed.effective 87_399).value .amp := by
  have hordered : opposed.initialTime ≤ opposed.futureTime := by decide
  obtain ⟨-, -, hbetween, hvalues⟩ := effective_path opposed hordered
  exact ⟨hordered, (hbetween 87_399 (by decide) (by decide)).2 .gamma, by decide,
    (hvalues .amp).1 (by decide) _ _ (by decide)⟩

end ConcentratedPool.Promotion
