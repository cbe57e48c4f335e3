import ConcentratedPool.HalfPower
import ConcentratedPool.Proofs.SignedRounding

/-!
# The series of a power of one half

`halfPower` sums the binomial series of `(1 - 1/2) ^ f` for a fraction `f`. All terms but the first
are negative, and each is at most half of the one before it. `PartialSum` says so of what the loop
holds after `j` terms, in the rounded arithmetic of the loop: a step keeps it
(`PartialSum.exists_term`), and it bounds both the sum, which stays between zero and one, and the
number of steps, since after `j` of them a term is at most `2⁻ʲ` (`PartialSum.exists_sum`). So the
loop ends for every fraction, and `halfPower` gives a power of one half for every exponent, which is
at most one (`exists_halfPower`).

The rounding of one term is a single one. A term is computed by three operations that round toward
zero, a product, a halving and a division by a whole number, and together they round the exact
quotient once (`exists_binomialTerm`).
-/

set_option autoImplicit false
set_option relaxedAutoImplicit false

namespace ConcentratedPool

namespace SignedDecimal

/-- A raw value of a magnitude that has room is that of a signed decimal. -/
theorem exists_ofRaw {n : ℤ} (h : n.natAbs ≤ Decimal.maxRaw) : ∃ c, ofRaw n = .ok c ∧ c.raw = n :=
  ⟨⟨n, h⟩, dif_pos h, rfl⟩

theorem abs_lt_toSigned {a : SignedDecimal} {b : Decimal} :
    a.abs < b.toSigned ↔ a.raw.natAbs < b.raw :=
  Int.ofNat_lt

/-- A value that is not negative loses its sign. -/
theorem exists_toUnsigned_of_nonneg {a : SignedDecimal} (ha : 0 ≤ a.raw) :
    ∃ d, a.toUnsigned = .ok d ∧ (d.raw : ℤ) = a.raw := by
  have hsize := a.natAbs_raw_le
  refine ⟨⟨a.raw.toNat, by omega⟩, ?_, Int.toNat_of_nonneg ha⟩
  rw [toUnsigned, if_neg (not_lt.mpr ha), Decimal.ofRaw_eq_ok]
  exact Int.toNat_of_nonneg ha

/-- The index of a term has room. -/
theorem exists_ofIndex {k : ℕ} (hk : k ≤ Limits.maxIterations) :
    ∃ c, ofInt (k : ℕ) = .ok c ∧ c.raw = k * Decimal.scale := by
  refine exists_ofRaw ?_
  rw [← Int.natCast_mul, Int.natAbs_natCast]
  exact (Nat.mul_le_mul_right _ hk).trans (by decide)

/-- A product with minus one half is the half, rounded toward zero, with the other sign. -/
theorem exists_mul_neg_half {a : SignedDecimal} (ha : 0 ≤ a.raw) :
    ∃ c, (a * -half : Except Fault SignedDecimal) = .ok c ∧ c.raw = -(a.raw / 2) := by
  have hhalf : a.raw * (-half).raw = (-a.raw) * (Decimal.scale / 2 : ℤ) := by
    have hraw : (-half).raw = -(Decimal.scale / 2 : ℤ) := by decide
    rw [hraw, mul_neg, neg_mul]
  have hscale : (Decimal.scale : ℤ) = 2 * (Decimal.scale / 2 : ℤ) := by decide
  have hexact : (a.raw * (-half).raw).tdiv Decimal.scale = -(a.raw / 2) := by
    rw [hhalf, hscale, Int.mul_ediv_cancel_left _ two_ne_zero,
      Int.mul_tdiv_mul_of_pos_left _ _ (by decide), Int.neg_tdiv, Int.tdiv_eq_ediv_of_nonneg ha]
  have hsize := a.natAbs_raw_le
  obtain ⟨c, hc, hraw⟩ := exists_ofRaw (n := (a.raw * (-half).raw).tdiv Decimal.scale) (by omega)
  exact ⟨c, hc, hraw.trans hexact⟩

/-- The quotient of a value that is not positive and a whole number, rounded toward zero. -/
theorem exists_div_index {a b : SignedDecimal} {k : ℕ} (ha : a.raw ≤ 0) (hk : 0 < k)
    (hb : b.raw = k * Decimal.scale) :
    ∃ c, (a / b : Except Fault SignedDecimal) = .ok c ∧ c.raw = -(-a.raw / k) := by
  have hexact : (a.raw * Decimal.scale).tdiv b.raw = -(-a.raw / k) := by
    rw [hb, Int.mul_tdiv_mul_of_pos_left _ _ (by decide), ← neg_neg a.raw, Int.neg_tdiv,
      Int.tdiv_eq_ediv_of_nonneg (by omega), neg_neg]
  have hquotient : 0 ≤ -a.raw / k ∧ -a.raw / k ≤ -a.raw :=
    ⟨Int.ediv_nonneg (by omega) (by omega), Int.ediv_le_self _ (by omega)⟩
  have hsize := a.natAbs_raw_le
  obtain ⟨c, hc, hraw⟩ := exists_ofRaw (n := (a.raw * Decimal.scale).tdiv b.raw) (by omega)
  have hne : b.raw ≠ 0 := by
    rw [hb]
    exact mul_ne_zero (by omega) (by decide)
  exact ⟨c, (if_neg hne).trans hc, hraw.trans hexact⟩

end SignedDecimal

/-! ### One term -/

section Term

variable {f term : SignedDecimal} {j : ℕ}

/-- The next term, before it is rounded, in units of the product of the last two divisors. -/
def termNumerator (f term : SignedDecimal) (j : ℕ) : ℤ :=
  term.raw * (f.raw - j * Decimal.scale)

/-- The other factor of the next term is at most its index. -/
theorem natAbs_sub_index_le (hf : 0 ≤ f.raw) (hone : f.raw ≤ Decimal.scale) :
    (f.raw - j * Decimal.scale).natAbs ≤ (j + 1) * Decimal.scale := by
  have hindex : (0 : ℤ) ≤ j * Decimal.scale := mul_nonneg j.cast_nonneg (by decide)
  rw [add_mul, one_mul]
  zify
  rw [abs_le]
  constructor <;> linarith

theorem termNumerator_le (hf : 0 ≤ f.raw) (hone : f.raw ≤ Decimal.scale) :
    termNumerator f term j ≤ term.raw.natAbs * ((j + 1) * Decimal.scale) := by
  calc termNumerator f term j ≤ |termNumerator f term j| := le_abs_self _
    _ = (term.raw.natAbs * (f.raw - j * Decimal.scale).natAbs : ℕ) := by
        rw [termNumerator, Int.abs_eq_natAbs, Int.natAbs_mul]
    _ ≤ (term.raw.natAbs * ((j + 1) * Decimal.scale) : ℕ) := by
        exact_mod_cast Nat.mul_le_mul_left _ (natAbs_sub_index_le hf hone)
    _ = term.raw.natAbs * ((j + 1) * Decimal.scale) := by push_cast; rfl

/-- The product in a term has room, and is the numerator without its last places. -/
theorem exists_mul_reduced {reduced : SignedDecimal} (hj : j < Limits.maxIterations)
    (hf : 0 ≤ f.raw) (hone : f.raw ≤ Decimal.scale) (hterm : term.raw.natAbs ≤ Decimal.scale)
    (hsign : 0 ≤ termNumerator f term j) (hreduced : reduced.raw = f.raw - j * Decimal.scale) :
    ∃ product, (term * reduced : Except Fault SignedDecimal) = .ok product ∧
      product.raw = termNumerator f term j / Decimal.scale ∧ 0 ≤ product.raw := by
  have hsize : termNumerator f term j ≤ Decimal.maxRaw := by
    have hproduct : term.raw.natAbs * ((j + 1) * Decimal.scale) ≤
        Decimal.scale * (Limits.maxIterations * Decimal.scale) :=
      Nat.mul_le_mul hterm (Nat.mul_le_mul_right _ hj)
    exact (termNumerator_le hf hone).trans (by exact_mod_cast hproduct.trans (by decide))
  have hquotient : 0 ≤ termNumerator f term j / Decimal.scale ∧
      termNumerator f term j / Decimal.scale ≤ termNumerator f term j :=
    ⟨Int.ediv_nonneg hsign (by decide), Int.ediv_le_self _ hsign⟩
  have hexact : (term.raw * reduced.raw).tdiv Decimal.scale =
      termNumerator f term j / Decimal.scale := by
    rw [hreduced, ← Int.tdiv_eq_ediv_of_nonneg hsign]
    rfl
  obtain ⟨product, hproduct, hraw⟩ := SignedDecimal.exists_ofRaw
    (n := (term.raw * reduced.raw).tdiv Decimal.scale) (by omega)
  exact ⟨product, hproduct, hraw.trans hexact, by omega⟩

/-- The next term of the series is the exact quotient, rounded toward zero once. -/
theorem exists_binomialTerm (hj : j < Limits.maxIterations) (hf : 0 ≤ f.raw)
    (hone : f.raw ≤ Decimal.scale) (hterm : term.raw.natAbs ≤ Decimal.scale)
    (hsign : 0 ≤ termNumerator f term j) :
    ∃ next, binomialTerm f term (j + 1) = .ok next ∧
      next.raw = -(termNumerator f term j / (2 * (j + 1) * Decimal.scale)) := by
  obtain ⟨index, hindex, hindexRaw⟩ := SignedDecimal.exists_ofIndex hj.le
  have hroom : (f.raw - index.raw).natAbs ≤ Decimal.maxRaw := by
    rw [hindexRaw]
    exact (natAbs_sub_index_le hf hone).trans ((Nat.mul_le_mul_right _ hj).trans (by decide))
  obtain ⟨reduced, hreduced, hreducedRaw⟩ := SignedDecimal.exists_ofRaw hroom
  rw [hindexRaw] at hreducedRaw
  obtain ⟨product, hproduct, hproductRaw, hnonneg⟩ :=
    exists_mul_reduced hj hf hone hterm hsign hreducedRaw
  obtain ⟨halved, hhalved, hhalvedRaw⟩ := SignedDecimal.exists_mul_neg_half hnonneg
  obtain ⟨divisor, hdivisor, hdivisorRaw⟩ := SignedDecimal.exists_ofIndex hj
  have hnonpos : halved.raw ≤ 0 := by omega
  obtain ⟨next, hnext, hnextRaw⟩ :=
    SignedDecimal.exists_div_index hnonpos j.succ_pos hdivisorRaw
  refine ⟨next, ?_, ?_⟩
  · simp only [binomialTerm, bind_eq_ok, Nat.add_sub_cancel]
    exact ⟨index, hindex, reduced, hreduced, product, hproduct, halved, hhalved, divisor, hdivisor,
      hnext⟩
  · rw [hnextRaw, hhalvedRaw, hproductRaw, neg_neg, Int.ediv_ediv_of_nonneg (by decide),
      Int.ediv_ediv_of_nonneg (by decide)]
    congr 2
    push_cast
    ring

/-- The terms shrink by half at least. -/
theorem two_mul_le_of_next {next : SignedDecimal} (hf : 0 ≤ f.raw) (hone : f.raw ≤ Decimal.scale)
    (hsign : 0 ≤ termNumerator f term j)
    (hnext : next.raw = -(termNumerator f term j / (2 * (j + 1) * Decimal.scale))) :
    next.raw ≤ 0 ∧ 2 * next.raw.natAbs ≤ term.raw.natAbs := by
  have hpos : (0 : ℤ) < (j + 1) * Decimal.scale := mul_pos (by omega) (by decide)
  have hquotient : 0 ≤ termNumerator f term j / (2 * (j + 1) * Decimal.scale) :=
    Int.ediv_nonneg hsign (by rw [mul_assoc]; omega)
  have hhalf : 2 * (termNumerator f term j / (2 * (j + 1) * Decimal.scale)) ≤ term.raw.natAbs := by
    refine le_of_mul_le_mul_right ?_ hpos
    calc 2 * (termNumerator f term j / (2 * (j + 1) * Decimal.scale)) * ((j + 1) * Decimal.scale)
        = termNumerator f term j / (2 * (j + 1) * Decimal.scale) * (2 * (j + 1) * Decimal.scale) :=
          by ring
      _ ≤ termNumerator f term j := Int.ediv_mul_le _ (by rw [mul_assoc]; omega)
      _ ≤ term.raw.natAbs * ((j + 1) * Decimal.scale) := termNumerator_le hf hone
  omega

end Term

/-! ### The sum -/

/-- What the loop holds after `j` terms of the series beyond the first: the last of them, and the
sum so far. -/
structure PartialSum (f : SignedDecimal) (j : ℕ) (term total : SignedDecimal) : Prop where
  /-- The next term is not positive. -/
  sign : 0 ≤ termNumerator f term j
  /-- The terms have shrunk by half each time. -/
  small : term.raw.natAbs * 2 ^ j ≤ Decimal.scale
  /-- The sum has room for all terms that follow. -/
  covered : (term.raw.natAbs : ℤ) ≤ total.raw
  le_one : total.raw ≤ Decimal.scale

namespace PartialSum

variable {f term total : SignedDecimal} {j : ℕ}

/-- The series starts at one. -/
theorem start (hf : 0 ≤ f.raw) : PartialSum f 0 .one .one := by
  refine ⟨mul_nonneg (by decide) ?_, by decide, by decide, by decide⟩
  rwa [Nat.cast_zero, zero_mul, sub_zero]

theorem natAbs_le (h : PartialSum f j term total) : term.raw.natAbs ≤ Decimal.scale :=
  (Nat.le_mul_of_pos_right _ (Nat.two_pow_pos j)).trans h.small

/-- One step of the loop adds a term that is not positive and at most half of the last. -/
theorem exists_term (h : PartialSum f j term total) (hj : j < Limits.maxIterations)
    (hf : 0 ≤ f.raw) (hone : f.raw ≤ Decimal.scale) :
    ∃ next total', binomialTerm f term (j + 1) = .ok next ∧
      (total + next : Except Fault SignedDecimal) = .ok total' ∧ total'.raw ≤ total.raw ∧
      PartialSum f (j + 1) next total' := by
  obtain ⟨next, hnext, hnextRaw⟩ := exists_binomialTerm hj hf hone h.natAbs_le h.sign
  obtain ⟨hneg, hhalf⟩ := two_mul_le_of_next hf hone h.sign hnextRaw
  have hcovered := h.covered
  have hle := h.le_one
  obtain ⟨total', htotal, htotalRaw⟩ := SignedDecimal.exists_ofRaw (n := total.raw + next.raw) (by
    have hroom : (Decimal.scale : ℤ) ≤ Decimal.maxRaw := by decide
    omega)
  refine ⟨next, total', hnext, htotal, by omega, ⟨?_, ?_, by omega, by omega⟩⟩
  · refine mul_nonneg_of_nonpos_of_nonpos hneg ?_
    have hindex : (0 : ℤ) ≤ j * Decimal.scale := mul_nonneg j.cast_nonneg (by decide)
    rw [Nat.cast_add, add_mul, Nat.cast_one, one_mul]
    linarith
  · calc next.raw.natAbs * 2 ^ (j + 1) = 2 * next.raw.natAbs * 2 ^ j := by ring
      _ ≤ term.raw.natAbs * 2 ^ j := Nat.mul_le_mul_right _ hhalf
      _ ≤ Decimal.scale := h.small

/-- From a term that is not small, with as many steps left as it takes to halve one to nothing, the
loop ends with a sum that is no larger than the one so far, and not negative. -/
theorem exists_sum {steps : ℕ} (h : PartialSum f j term total)
    (hsteps : j + steps = Limits.maxIterations)
    (hf : 0 ≤ f.raw) (hone : f.raw ≤ Decimal.scale)
    (hlarge : Limits.halfPowerTolerance.raw ≤ term.raw.natAbs) :
    ∃ sum, binomialSum f steps (j + 1) term total = .ok sum ∧ 0 ≤ sum.raw ∧
      sum.raw ≤ Decimal.scale := by
  induction steps generalizing j term total with
  | zero =>
    -- After all iterations a term that is not small is more than the series started with.
    obtain rfl : j = Limits.maxIterations := hsteps
    have hless : Decimal.scale < Limits.halfPowerTolerance.raw * 2 ^ Limits.maxIterations := by
      decide +kernel
    have hmore := Nat.mul_le_mul_right (2 ^ Limits.maxIterations) hlarge
    exact absurd (hmore.trans h.small) (not_le.mpr hless)
  | succ steps ih =>
    obtain ⟨next, total', hnext, htotal, -, hstep⟩ := h.exists_term (by omega) hf hone
    rw [binomialSum, hnext, ok_bind, htotal, ok_bind]
    split_ifs with hclose
    · exact ⟨total', rfl, le_trans (Int.natCast_nonneg _) hstep.covered, hstep.le_one⟩
    · rw [SignedDecimal.abs_lt_toSigned, not_lt] at hclose
      exact ih hstep (by omega) hclose

end PartialSum

/-! ### The power -/

/-- The series of every fraction ends, with a sum between zero and one. -/
theorem exists_binomialSum {fraction : Decimal} (hone : fraction.raw ≤ Decimal.scale) :
    ∃ sum, binomialSum fraction.toSigned Limits.maxIterations 1 .one .one = .ok sum ∧
      0 ≤ sum.raw ∧ sum.raw ≤ Decimal.scale := by
  have hnonneg : 0 ≤ fraction.toSigned.raw := Int.natCast_nonneg _
  exact (PartialSum.start hnonneg).exists_sum (zero_add _) hnonneg (Int.ofNat_le.mpr hone)
    (by decide)

/-- A product of two values of at most one is at most one. -/
theorem Decimal.exists_mul_of_le_one {a b : Decimal} (ha : a.raw ≤ scale) (hb : b.raw ≤ scale) :
    ∃ c, (a * b : Except Fault Decimal) = .ok c ∧ c.raw ≤ scale := by
  have hle : a.raw * b.raw / scale ≤ scale := by
    calc a.raw * b.raw / scale
        ≤ scale * scale / scale := Nat.div_le_div_right (Nat.mul_le_mul ha hb)
      _ = scale := Nat.mul_div_cancel _ scale_pos
  exact ⟨⟨_, hle.trans (by decide)⟩, mul_eq_ok.mpr rfl, hle⟩

/-- Every power of one half is given, and is at most one. -/
theorem exists_halfPower (power : Decimal) :
    ∃ v, halfPower power = .ok v ∧ v.raw ≤ Decimal.scale := by
  let fraction : Decimal :=
    ⟨power.raw % Decimal.scale, (Nat.mod_le _ _).trans power.raw_le⟩
  let shifted : Decimal :=
    ⟨Decimal.one.raw >>> power.floor, (Nat.shiftRight_le _ _).trans Decimal.one.raw_le⟩
  have hshifted : shifted.raw ≤ Decimal.scale := Nat.shiftRight_le _ _
  have hfraction : fraction.raw ≤ Decimal.scale := (Nat.mod_lt _ Decimal.scale_pos).le
  obtain ⟨sum, hsum, hnonneg, hone⟩ := exists_binomialSum hfraction
  obtain ⟨value, hvalue, hvalueRaw⟩ := SignedDecimal.exists_toUnsigned_of_nonneg hnonneg
  have hvalueOne : value.raw ≤ Decimal.scale := by omega
  obtain ⟨v, hv, hle⟩ := Decimal.exists_mul_of_le_one hshifted hvalueOne
  unfold halfPower
  dsimp only
  split_ifs with hzero
  · exact ⟨shifted, rfl, hshifted⟩
  · refine ⟨v, ?_, hle⟩
    simp only [bind_eq_ok]
    exact ⟨sum, hsum, value, hvalue, hv⟩

end ConcentratedPool
