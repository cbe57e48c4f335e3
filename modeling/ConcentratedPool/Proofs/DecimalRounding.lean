import ConcentratedPool.Proofs.ExactCurve
import ConcentratedPool.Proofs.CheckedArithmetic
import Mathlib.Algebra.Order.Floor.Semifield
import Mathlib.Data.Rat.Floor

/-!
# What rounding takes off a decimal

The exact value of a checked result against that of the exact operation. Sums, differences and
distances are exact; products and quotients are rounded down by less than one unit of the eighteenth
place (`Decimal.toRat_mul_bounds`, `Decimal.toRat_div_bounds`). The signed counterpart, which rounds
toward zero, is the module on signed rounding.
-/

set_option autoImplicit false
set_option relaxedAutoImplicit false

namespace ConcentratedPool

namespace Decimal

variable {a b c : Decimal}

theorem toRat_one : one.toRat = 1 := by
  norm_num [toRat, one, scale]

theorem toRat_le_one : a.toRat ≤ 1 ↔ a.raw ≤ scale := by
  rw [← toRat_one, toRat_le_toRat]
  rfl

/-- A quotient of natural numbers is rounded down by less than one. -/
theorem floor_div_bounds (m n : ℕ) :
    ((m / n : ℕ) : ℚ) ≤ m / n ∧ (m / n : ℚ) < ((m / n : ℕ) : ℚ) + 1 := by
  rw [← Nat.floor_div_eq_div (K := ℚ) m n]
  exact ⟨Nat.floor_le (by positivity), Nat.lt_floor_add_one _⟩

/-- A product is rounded down by less than one unit of the eighteenth place. -/
theorem toRat_mul_bounds (h : (a * b : Except Fault Decimal) = .ok c) :
    c.toRat ≤ a.toRat * b.toRat ∧ a.toRat * b.toRat < c.toRat + ulp := by
  have hscale := cast_scale_pos
  obtain ⟨hle, hlt⟩ := floor_div_bounds (a.raw * b.raw) scale
  rw [← mul_eq_ok.mp h, Nat.cast_mul] at hle hlt
  have hexact : a.toRat * b.toRat = a.raw * b.raw / scale / scale := by
    unfold toRat
    field_simp
  have hnext : c.toRat + ulp = (c.raw + 1) / scale := (add_div _ _ _).symm
  rw [hexact, hnext, toRat]
  exact ⟨div_le_div_of_nonneg_right hle hscale.le, div_lt_div_of_pos_right hlt hscale⟩

/-- A quotient is rounded down by less than one unit of the eighteenth place, and its divisor is
positive. -/
theorem toRat_div_bounds (h : (a / b : Except Fault Decimal) = .ok c) :
    0 < b.toRat ∧ c.toRat ≤ a.toRat / b.toRat ∧ a.toRat / b.toRat < c.toRat + ulp := by
  have hscale := cast_scale_pos
  obtain ⟨hne, hraw⟩ := div_eq_ok.mp h
  have hb : (0 : ℚ) < b.raw := by exact_mod_cast Nat.pos_of_ne_zero hne
  obtain ⟨hle, hlt⟩ := floor_div_bounds (a.raw * scale) b.raw
  rw [← hraw, Nat.cast_mul] at hle hlt
  have hexact : a.toRat / b.toRat = a.raw * scale / b.raw / scale := by
    unfold toRat
    field_simp
  have hnext : c.toRat + ulp = (c.raw + 1) / scale := (add_div _ _ _).symm
  rw [hexact, hnext, toRat, toRat]
  exact ⟨div_pos hb hscale, div_le_div_of_nonneg_right hle hscale.le,
    div_lt_div_of_pos_right hlt hscale⟩

/-- A quotient of whole numbers is rounded down by less than one unit of the eighteenth place. -/
theorem toRat_ofRatio_bounds {n m : ℤ} (hm : 0 < m) (h : ofRatio n m = .ok c) :
    c.toRat ≤ n / m ∧ (n / m : ℚ) < c.toRat + ulp := by
  rw [ofRatio, if_neg hm.ne', ofRaw_eq_ok, Int.fdiv_eq_ediv_of_nonneg _ hm.le] at h
  have hscale := cast_scale_pos
  have hmRat : (0 : ℚ) < m := by exact_mod_cast hm
  have hle : (c.raw : ℤ) * m ≤ n * scale := h ▸ Int.ediv_mul_le _ hm.ne'
  have hlt : n * scale < ((c.raw : ℤ) + 1) * m := h ▸ Int.lt_ediv_add_one_mul_self _ hm
  have hnext : c.toRat + ulp = (c.raw + 1) / scale := (add_div _ _ _).symm
  rw [hnext, toRat]
  constructor
  · rw [div_le_div_iff₀ hscale hmRat]
    exact_mod_cast hle
  · rw [div_lt_div_iff₀ hmRat hscale]
    exact_mod_cast hlt

/-- A difference is exact. -/
theorem toRat_sub (h : (a - b : Except Fault Decimal) = .ok c) : c.toRat = a.toRat - b.toRat := by
  have hraw : (c.raw + b.raw : ℚ) = a.raw := by exact_mod_cast sub_eq_ok.mp h
  rw [toRat, toRat, toRat, ← sub_div, ← hraw, add_sub_cancel_right]

/-- A sum is exact. -/
theorem toRat_add (h : (a + b : Except Fault Decimal) = .ok c) : c.toRat = a.toRat + b.toRat := by
  rw [toRat, add_eq_ok.mp h, Nat.cast_add, add_div]
  rfl

/-- The distance of the raw values. -/
theorem raw_distance (a b : Decimal) : ((a.distance b).raw : ℤ) = |(a.raw : ℤ) - b.raw| := by
  change ((a.raw - b.raw + (b.raw - a.raw) : ℕ) : ℤ) = _
  rcases le_total (a.raw : ℤ) b.raw with hle | hle
  · rw [abs_of_nonpos (sub_nonpos.mpr hle)]
    omega
  · rw [abs_of_nonneg (sub_nonneg.mpr hle)]
    omega

/-- The distance is exact. -/
theorem toRat_distance (a b : Decimal) : (a.distance b).toRat = |a.toRat - b.toRat| := by
  have hscale := cast_scale_pos
  have hrat : ((a.distance b).raw : ℚ) = |(a.raw : ℚ) - b.raw| := by
    exact_mod_cast raw_distance a b
  rw [toRat, hrat, toRat, toRat, ← sub_div, abs_div, abs_of_pos hscale]

/-- As `toRat_le_toRat`, for the strict order. -/
theorem toRat_lt_toRat : a.toRat < b.toRat ↔ a < b := by
  rw [← not_le, toRat_le_toRat, not_le]
  rfl

end Decimal

end ConcentratedPool
