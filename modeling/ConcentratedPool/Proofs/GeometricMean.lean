import ConcentratedPool.Proofs.SquareRoots

/-!
# The geometric mean of two balances

The solver of the invariant starts at twice the geometric mean of the balances, the square root of
their product. It is the exact mean but for the roundings of the product and of the root
(`exists_geometricMean`).
-/

set_option autoImplicit false
set_option relaxedAutoImplicit false

namespace ConcentratedPool

/-- The geometric mean is the root of the rounded product, which has to be in range. -/
theorem geometricMean_eq_ok {x : Pair Decimal} {m : Decimal} :
    geometricMean x = .ok m ↔ x.base.raw * x.quote.raw / Decimal.scale ≤ Decimal.maxRaw ∧
      m.raw = Nat.sqrt (x.base.raw * x.quote.raw / Decimal.scale * Decimal.scale) := by
  simp only [geometricMean, bind_eq_ok, Decimal.mul_eq_ok, Decimal.sqrt_eq_ok]
  constructor
  · rintro ⟨area, harea, hm⟩
    rw [← harea]
    exact ⟨area.raw_le, hm⟩
  · rintro ⟨hle, hm⟩
    exact ⟨⟨_, hle⟩, rfl, hm⟩

/-- A number is the geometric mean of a pair, but for one unit in the product and one in the
root. -/
structure IsMean (x : Pair ℚ) (m : ℚ) : Prop where
  nonneg : 0 ≤ m
  sq_le : m ^ 2 ≤ x.base * x.quote
  lt_sq : x.base * x.quote < (m + Decimal.ulp) ^ 2 + Decimal.ulp

/-- A mean in raw units. -/
theorem isMean_of_raw {x : Pair Decimal} {m : Decimal}
    (hle : m.raw * m.raw ≤ x.base.raw * x.quote.raw)
    (hlt : x.base.raw * x.quote.raw < (m.raw + 1) * (m.raw + 1) + Decimal.scale) :
    IsMean (x.map Decimal.toRat) m.toRat := by
  have hscale := Decimal.cast_scale_pos
  have hproduct : (x.map Decimal.toRat).base * (x.map Decimal.toRat).quote =
      (x.base.raw * x.quote.raw : ℕ) / (Decimal.scale : ℚ) ^ 2 := by
    simp only [Pair.map, Decimal.toRat]
    rw [div_mul_div_comm, ← sq, Nat.cast_mul]
  refine ⟨m.toRat_nonneg, ?_, ?_⟩
  · rw [hproduct, Decimal.toRat, div_pow]
    refine div_le_div_of_nonneg_right ?_ (by positivity)
    rw [sq]
    exact_mod_cast hle
  · have hbound : (m.toRat + Decimal.ulp) ^ 2 + Decimal.ulp =
        ((m.raw + 1) * (m.raw + 1) + Decimal.scale : ℕ) / (Decimal.scale : ℚ) ^ 2 := by
      rw [Decimal.toRat, Decimal.ulp]
      push_cast
      field_simp
    rw [hproduct, hbound]
    exact div_lt_div_of_pos_right (by exact_mod_cast hlt) (by positivity)

/-- The geometric mean of two balances of a hundred million units each at most. -/
theorem exists_geometricMean {x : Pair Decimal} (hx : ∀ side, (x.get side).raw ≤ 10 ^ 26) :
    ∃ m, geometricMean x = .ok m ∧ m.raw ≤ 10 ^ 26 ∧ IsMean (x.map Decimal.toRat) m.toRat := by
  have hproduct : x.base.raw * x.quote.raw ≤ 10 ^ 26 * 10 ^ 26 :=
    Nat.mul_le_mul (hx .base) (hx .quote)
  set area := x.base.raw * x.quote.raw / Decimal.scale with harea
  set root := Nat.sqrt (area * Decimal.scale) with hroot
  have hareaLe : area * Decimal.scale ≤ x.base.raw * x.quote.raw := Nat.div_mul_le_self _ _
  have hareaLt : x.base.raw * x.quote.raw < area * Decimal.scale + Decimal.scale :=
    Nat.lt_div_mul_add Decimal.scale_pos
  have hrootLe : root * root ≤ area * Decimal.scale := Nat.sqrt_le _
  have hrootLt : area * Decimal.scale < (root + 1) * (root + 1) := Nat.lt_succ_sqrt _
  have hsmall : root ≤ 10 ^ 26 := by
    by_contra hlarge
    have hsq := Nat.mul_lt_mul'' (not_le.mp hlarge) (not_le.mp hlarge)
    omega
  have hareaMax : area ≤ Decimal.maxRaw := by
    unfold Decimal.scale Decimal.maxRaw at *
    omega
  exact ⟨⟨root, hsmall.trans (by decide)⟩, geometricMean_eq_ok.mpr ⟨hareaMax, rfl⟩, hsmall,
    isMean_of_raw (hrootLe.trans hareaLe)
      (hareaLt.trans (Nat.add_lt_add_right hrootLt Decimal.scale))⟩

end ConcentratedPool
