import ConcentratedPool.Proofs.CheckedArithmetic
import ConcentratedPool.Proofs.ExactCurve

/-!
# What a checked signed operation gives

The solvers of the curve compute in signed decimals. Their sums and differences are exact; their
products and quotients are rounded toward zero, so that each is within one unit of the eighteenth
place of the exact one (`SignedDecimal.abs_mul_sub_le`, `SignedDecimal.abs_div_sub_le`). An
operation fails only when the range is left, so that on operands of a known size there is a result,
of a known size (`SignedDecimal.exists_add`, `SignedDecimal.exists_mul`,
`SignedDecimal.exists_div`).
-/

set_option autoImplicit false
set_option relaxedAutoImplicit false

namespace ConcentratedPool

/-- A quotient of whole numbers that is rounded toward zero is within one of the exact one. -/
theorem abs_tdiv_sub_le (n m : ℤ) (hm : m ≠ 0) : |((n.tdiv m : ℤ) : ℚ) - n / m| ≤ 1 := by
  have hm' : (m : ℚ) ≠ 0 := by exact_mod_cast hm
  have hdiff : ((n.tdiv m : ℤ) : ℚ) - n / m = -((n.tmod m : ℤ) / m) := by
    have hsplit : (m * n.tdiv m + n.tmod m : ℚ) = n := by exact_mod_cast Int.mul_tdiv_add_tmod n m
    field_simp
    linarith
  have hrest : |((n.tmod m : ℤ) : ℚ)| ≤ |(m : ℚ)| := by
    have hless : (n.tmod m).natAbs ≤ m.natAbs := by
      rw [Int.natAbs_tmod]
      exact (Nat.mod_lt _ (Int.natAbs_pos.mpr hm)).le
    rw [← Int.cast_abs, ← Int.cast_abs, Int.abs_eq_natAbs, Int.abs_eq_natAbs]
    exact_mod_cast hless
  rw [hdiff, abs_neg, abs_div]
  exact div_le_one_of_le₀ hrest (abs_nonneg _)

/-- Rounding a quotient toward zero takes off less than one where it is not negative. -/
theorem tdiv_bounds {n m : ℤ} (hn : 0 ≤ n) (hm : 0 < m) :
    0 ≤ n.tdiv m ∧ ((n.tdiv m : ℤ) : ℚ) ≤ n / m ∧ (n / m : ℚ) < (n.tdiv m : ℤ) + 1 := by
  have hmRat : (0 : ℚ) < m := by exact_mod_cast hm
  rw [Int.tdiv_eq_ediv_of_nonneg hn]
  refine ⟨Int.ediv_nonneg hn hm.le, ?_, ?_⟩
  · rw [le_div_iff₀ hmRat]
    exact_mod_cast Int.ediv_mul_le n hm.ne'
  · rw [div_lt_iff₀ hmRat]
    exact_mod_cast Int.lt_ediv_add_one_mul_self n hm

namespace SignedDecimal

/-- The exact value of a signed decimal. -/
def toRat (a : SignedDecimal) : ℚ := a.raw / Decimal.scale

variable {a b c : SignedDecimal}

/-- A raw value makes a signed decimal exactly when it is the raw value of one. -/
theorem ofRaw_eq_ok {n : ℤ} : ofRaw n = .ok c ↔ c.raw = n := by
  unfold ofRaw
  split_ifs with hle
  · rw [Except.ok.injEq, SignedDecimal.ext_iff, eq_comm]
  · have hc := c.natAbs_raw_le
    simp only [false_iff]
    rintro rfl
    exact hle hc

/-- A decimal keeps its value when it gets a sign. -/
theorem toRat_toSigned (a : Decimal) : a.toSigned.toRat = a.toRat := by
  simp [toRat, Decimal.toSigned, Decimal.toRat]

theorem toRat_one : one.toRat = 1 := by
  norm_num [toRat, one, Decimal.toSigned, Decimal.one, Decimal.scale]

theorem toRat_two : two.toRat = 2 := by
  norm_num [toRat, two, Decimal.toSigned, Decimal.two, Decimal.scale]

theorem toRat_four : four.toRat = 4 := by
  norm_num [toRat, four, Decimal.toSigned, Decimal.four, Decimal.scale]

theorem toRat_neg (a : SignedDecimal) : (-a).toRat = -a.toRat := by
  change ((-a.raw : ℤ) : ℚ) / Decimal.scale = _
  rw [Int.cast_neg, neg_div]
  rfl

/-- A sum is exact. -/
theorem toRat_add (h : (a + b : Except Fault SignedDecimal) = .ok c) :
    c.toRat = a.toRat + b.toRat := by
  change ofRaw (a.raw + b.raw) = .ok c at h
  rw [toRat, ofRaw_eq_ok.mp h, Int.cast_add, add_div]
  rfl

/-- A difference is exact. -/
theorem toRat_sub (h : (a - b : Except Fault SignedDecimal) = .ok c) :
    c.toRat = a.toRat - b.toRat := by
  change ofRaw (a.raw - b.raw) = .ok c at h
  rw [toRat, ofRaw_eq_ok.mp h, Int.cast_sub, sub_div]
  rfl

/-- A product is within one unit of the eighteenth place of the exact one. -/
theorem abs_mul_sub_le (h : (a * b : Except Fault SignedDecimal) = .ok c) :
    |c.toRat - a.toRat * b.toRat| ≤ Decimal.ulp := by
  change ofRaw ((a.raw * b.raw).tdiv Decimal.scale) = .ok c at h
  have hscale := Decimal.cast_scale_pos
  have hround := abs_tdiv_sub_le (a.raw * b.raw) Decimal.scale (by decide)
  rw [← ofRaw_eq_ok.mp h, Int.cast_natCast, Int.cast_mul] at hround
  have hdiff : c.toRat - a.toRat * b.toRat =
      ((c.raw : ℚ) - a.raw * b.raw / Decimal.scale) / Decimal.scale := by
    unfold toRat
    field_simp
  rw [hdiff, abs_div, abs_of_pos hscale, Decimal.ulp]
  exact div_le_div_of_nonneg_right hround hscale.le

/-- A quotient is within one unit of the eighteenth place of the exact one, and its divisor is not
zero. -/
theorem abs_div_sub_le (h : (a / b : Except Fault SignedDecimal) = .ok c) :
    b.toRat ≠ 0 ∧ |c.toRat - a.toRat / b.toRat| ≤ Decimal.ulp := by
  change (if b.raw = 0 then _ else ofRaw ((a.raw * Decimal.scale).tdiv b.raw)) = .ok c at h
  split_ifs at h with hzero
  have hscale := Decimal.cast_scale_pos
  have hb : (b.raw : ℚ) ≠ 0 := by exact_mod_cast hzero
  have hround := abs_tdiv_sub_le (a.raw * Decimal.scale) b.raw hzero
  rw [← ofRaw_eq_ok.mp h, Int.cast_mul, Int.cast_natCast] at hround
  refine ⟨div_ne_zero hb hscale.ne', ?_⟩
  have hdiff : c.toRat - a.toRat / b.toRat =
      ((c.raw : ℚ) - a.raw * Decimal.scale / b.raw) / Decimal.scale := by
    unfold toRat
    field_simp
  rw [hdiff, abs_div, abs_of_pos hscale, Decimal.ulp]
  exact div_le_div_of_nonneg_right hround hscale.le

/-- A product with two is exact. -/
theorem toRat_mul_two (h : (a * two : Except Fault SignedDecimal) = .ok c) :
    c.toRat = 2 * a.toRat := by
  change ofRaw ((a.raw * (2 * Decimal.scale : ℕ)).tdiv Decimal.scale) = .ok c at h
  have hraw : (a.raw * (2 * Decimal.scale : ℕ)).tdiv Decimal.scale = 2 * a.raw := by
    rw [Nat.cast_mul, ← mul_assoc, Int.mul_tdiv_cancel _ (by decide), mul_comm]
    rfl
  rw [hraw, ofRaw_eq_ok] at h
  rw [toRat, h, toRat]
  push_cast
  ring

/-! ### Operands that are not negative -/

theorem toRat_nonneg : 0 ≤ a.toRat ↔ 0 ≤ a.raw := by
  have hscale := Decimal.cast_scale_pos
  rw [toRat, le_div_iff₀ hscale, zero_mul, Int.cast_nonneg_iff]

theorem toRat_pos : 0 < a.toRat ↔ 0 < a.raw := by
  have hscale := Decimal.cast_scale_pos
  rw [toRat, div_pos_iff_of_pos_right hscale, Int.cast_pos]

/-- A raw value that is rounded toward zero from a value that is not negative is less than one unit
of the eighteenth place below it. -/
theorem toRat_bounds_of_tdiv {n m : ℤ} (hn : 0 ≤ n) (hm : 0 < m) (h : ofRaw (n.tdiv m) = .ok c) :
    0 ≤ c.toRat ∧ c.toRat ≤ n / m / Decimal.scale ∧
      (n / m / Decimal.scale : ℚ) < c.toRat + Decimal.ulp := by
  have hscale := Decimal.cast_scale_pos
  obtain ⟨hpos, hle, hlt⟩ := tdiv_bounds hn hm
  rw [← ofRaw_eq_ok.mp h] at hpos hle hlt
  have hnext : c.toRat + Decimal.ulp = (c.raw + 1) / Decimal.scale := (add_div _ _ _).symm
  rw [hnext]
  exact ⟨toRat_nonneg.mpr hpos, div_le_div_of_nonneg_right hle hscale.le,
    div_lt_div_of_pos_right hlt hscale⟩

/-- A product of factors that are not negative is rounded down. -/
theorem mul_bounds_of_nonneg (ha : 0 ≤ a.toRat) (hb : 0 ≤ b.toRat)
    (h : (a * b : Except Fault SignedDecimal) = .ok c) :
    0 ≤ c.toRat ∧ c.toRat ≤ a.toRat * b.toRat ∧ a.toRat * b.toRat < c.toRat + Decimal.ulp := by
  change ofRaw ((a.raw * b.raw).tdiv Decimal.scale) = .ok c at h
  have hbounds := toRat_bounds_of_tdiv (mul_nonneg (toRat_nonneg.mp ha) (toRat_nonneg.mp hb))
    (by decide) h
  have hexact : a.toRat * b.toRat =
      ((a.raw * b.raw : ℤ) : ℚ) / (Decimal.scale : ℤ) / Decimal.scale := by
    unfold toRat
    push_cast
    field_simp
  rw [hexact]
  exact hbounds

/-- A quotient of a number that is not negative by a positive one is rounded down. -/
theorem div_bounds_of_nonneg (ha : 0 ≤ a.toRat) (hb : 0 < b.toRat)
    (h : (a / b : Except Fault SignedDecimal) = .ok c) :
    0 ≤ c.toRat ∧ c.toRat ≤ a.toRat / b.toRat ∧ a.toRat / b.toRat < c.toRat + Decimal.ulp := by
  change (if b.raw = 0 then _ else ofRaw ((a.raw * Decimal.scale).tdiv b.raw)) = .ok c at h
  have hbRaw := toRat_pos.mp hb
  rw [if_neg hbRaw.ne'] at h
  have hbounds := toRat_bounds_of_tdiv
    (mul_nonneg (toRat_nonneg.mp ha) (Int.natCast_nonneg Decimal.scale)) hbRaw h
  have hexact : a.toRat / b.toRat =
      ((a.raw * Decimal.scale : ℤ) : ℚ) / b.raw / Decimal.scale := by
    have hbRat : (b.raw : ℚ) ≠ 0 := by exact_mod_cast hbRaw.ne'
    have hscale := Decimal.cast_scale_pos.ne'
    unfold toRat
    push_cast
    field_simp
  rw [hexact]
  exact hbounds

/-- A signed decimal that loses its sign keeps its value. -/
theorem toRat_of_toUnsigned {d : Decimal} (h : a.toUnsigned = .ok d) : d.toRat = a.toRat := by
  unfold toUnsigned at h
  split_ifs at h with hneg
  rw [Decimal.ofRaw_eq_ok] at h
  rw [Decimal.toRat, toRat, ← h, Int.cast_natCast]

/-! ### Where there is a result -/

section Exists

variable {A B : ℚ}

/-- A raw value below `10⁵⁹` units makes a signed decimal. -/
theorem exists_of_raw {n : ℤ} (hn : |(n : ℚ)| ≤ 10 ^ 77) : ∃ c, ofRaw n = .ok c := by
  have hle : n.natAbs ≤ Decimal.maxRaw := by
    have hcast : (n.natAbs : ℚ) ≤ 10 ^ 77 := by
      rwa [Nat.cast_natAbs, Int.cast_abs]
    have hnat : n.natAbs ≤ 10 ^ 77 := by exact_mod_cast hcast
    exact hnat.trans (by decide)
  exact ⟨⟨n, hle⟩, dif_pos hle⟩

theorem abs_raw (a : SignedDecimal) : |(a.raw : ℚ)| = |a.toRat| * 10 ^ 18 := by
  have hscale : (Decimal.scale : ℚ) = 10 ^ 18 := by norm_num [Decimal.scale]
  rw [toRat, hscale, abs_div, abs_of_pos (by norm_num : (0 : ℚ) < 10 ^ 18)]
  field_simp

/-- A sum of small terms is a signed decimal. -/
theorem exists_add (ha : |a.toRat| ≤ A) (hb : |b.toRat| ≤ B) (hsum : A + B ≤ 10 ^ 58) :
    ∃ c, (a + b : Except Fault SignedDecimal) = .ok c ∧ c.toRat = a.toRat + b.toRat ∧
      |c.toRat| ≤ A + B := by
  obtain ⟨c, hc⟩ : ∃ c, (a + b : Except Fault SignedDecimal) = .ok c := by
    refine exists_of_raw ?_
    push_cast
    refine (abs_add_le _ _).trans ?_
    rw [abs_raw, abs_raw]
    linarith
  have hvalue := toRat_add hc
  exact ⟨c, hc, hvalue, hvalue ▸ (abs_add_le _ _).trans (add_le_add ha hb)⟩

theorem exists_sub (ha : |a.toRat| ≤ A) (hb : |b.toRat| ≤ B) (hsum : A + B ≤ 10 ^ 58) :
    ∃ c, (a - b : Except Fault SignedDecimal) = .ok c ∧ c.toRat = a.toRat - b.toRat ∧
      |c.toRat| ≤ A + B := by
  obtain ⟨c, hc⟩ : ∃ c, (a - b : Except Fault SignedDecimal) = .ok c := by
    refine exists_of_raw ?_
    push_cast
    refine (abs_sub _ _).trans ?_
    rw [abs_raw, abs_raw]
    linarith
  have hvalue := toRat_sub hc
  exact ⟨c, hc, hvalue, hvalue ▸ (abs_sub _ _).trans (add_le_add ha hb)⟩

/-- A quotient of raw values that is not too large makes a signed decimal. -/
theorem exists_of_tdiv {n m : ℤ} (hm : m ≠ 0) (hn : |(n : ℚ) / m| ≤ 10 ^ 76) :
    ∃ c, ofRaw (n.tdiv m) = .ok c := by
  have hround := abs_tdiv_sub_le n m hm
  refine exists_of_raw ?_
  calc |((n.tdiv m : ℤ) : ℚ)| ≤ |((n.tdiv m : ℤ) : ℚ) - n / m| + |(n : ℚ) / m| := by
        simpa using abs_add_le (((n.tdiv m : ℤ) : ℚ) - n / m) (n / m)
    _ ≤ 1 + 10 ^ 76 := add_le_add hround hn
    _ ≤ 10 ^ 77 := by norm_num

/-- Within one unit of a value of a given size. -/
theorem abs_le_of_near {c v V : ℚ} (hnear : |c - v| ≤ Decimal.ulp) (hv : |v| ≤ V) :
    |c| ≤ V + 1 := by
  have hulp : Decimal.ulp ≤ 1 := by norm_num [Decimal.ulp, Decimal.scale]
  have htriangle : |c| ≤ |c - v| + |v| := by simpa using abs_add_le (c - v) v
  linarith

/-- A product of small factors is a signed decimal. -/
theorem exists_mul (ha : |a.toRat| ≤ A) (hb : |b.toRat| ≤ B) (hproduct : A * B ≤ 10 ^ 58) :
    ∃ c, (a * b : Except Fault SignedDecimal) = .ok c ∧
      |c.toRat - a.toRat * b.toRat| ≤ Decimal.ulp ∧ |c.toRat| ≤ A * B + 1 := by
  have hle : |a.toRat * b.toRat| ≤ A * B := by
    rw [abs_mul]
    exact mul_le_mul ha hb (abs_nonneg _) ((abs_nonneg _).trans ha)
  obtain ⟨c, hc⟩ : ∃ c, (a * b : Except Fault SignedDecimal) = .ok c := by
    refine exists_of_tdiv (by decide) ?_
    have hraw : ((a.raw * b.raw : ℤ) : ℚ) / (Decimal.scale : ℤ) =
        a.toRat * b.toRat * 10 ^ 18 := by
      simp only [toRat, Decimal.scale]
      push_cast
      ring
    rw [hraw, abs_mul, abs_of_pos (by norm_num : (0 : ℚ) < 10 ^ 18)]
    linarith
  exact ⟨c, hc, abs_mul_sub_le hc, abs_le_of_near (abs_mul_sub_le hc) hle⟩

/-- A quotient of a small number by one that is not too small is a signed decimal. -/
theorem exists_div (ha : |a.toRat| ≤ A) (hb : 1 ≤ B * |b.toRat|)
    (hproduct : A * B ≤ 10 ^ 58) :
    ∃ c, (a / b : Except Fault SignedDecimal) = .ok c ∧
      |c.toRat - a.toRat / b.toRat| ≤ Decimal.ulp ∧ |c.toRat| ≤ A * B + 1 := by
  have hbPos : 0 < |b.toRat| := by
    by_contra hzero
    rw [le_antisymm (not_lt.mp hzero) (abs_nonneg _), mul_zero] at hb
    linarith
  have hle : |a.toRat / b.toRat| ≤ A * B := by
    rw [abs_div, div_le_iff₀ hbPos]
    calc |a.toRat| = |a.toRat| * 1 := (mul_one _).symm
      _ ≤ A * (B * |b.toRat|) := mul_le_mul ha hb zero_le_one ((abs_nonneg _).trans ha)
      _ = A * B * |b.toRat| := (mul_assoc _ _ _).symm
  have hraw : b.raw ≠ 0 := by
    rintro hzero
    rw [toRat, hzero, Int.cast_zero, zero_div, abs_zero] at hbPos
    exact lt_irrefl _ hbPos
  obtain ⟨c, hc⟩ : ∃ c, (a / b : Except Fault SignedDecimal) = .ok c := by
    change ∃ c, (if b.raw = 0 then _ else ofRaw ((a.raw * Decimal.scale).tdiv b.raw)) = .ok c
    rw [if_neg hraw]
    refine exists_of_tdiv hraw ?_
    have hquotient : ((a.raw * Decimal.scale : ℤ) : ℚ) / b.raw = a.toRat / b.toRat * 10 ^ 18 := by
      have hscale := Decimal.cast_scale_pos.ne'
      have hten : (Decimal.scale : ℚ) = 10 ^ 18 := by norm_num [Decimal.scale]
      have hcast : (b.raw : ℚ) ≠ 0 := by exact_mod_cast hraw
      rw [← hten]
      simp only [toRat]
      push_cast
      field_simp
    rw [hquotient, abs_mul, abs_of_pos (by norm_num : (0 : ℚ) < 10 ^ 18)]
    linarith
  exact ⟨c, hc, (abs_div_sub_le hc).2, abs_le_of_near (abs_div_sub_le hc).2 hle⟩

end Exists

end SignedDecimal

end ConcentratedPool
