import ConcentratedPool.Proofs.DecimalRounding
import ConcentratedPool.Proofs.HalfPowerSeries
import Mathlib.Analysis.Analytic.Binomial

/-!
# The accuracy of a power of one half

`halfPower` sums a series and stops at a small term, in arithmetic that rounds every product and
quotient. Its distance from the exact power has three parts, which are bounded one after the other.

* The terms left out. In exact arithmetic the terms are those of the binomial series
  (`hasSum_exactTerm`), and each is at most half of the one before it, so that all terms after one
  are together at most that one (`abs_sub_sum_exactTerm_le`).
* The rounding of the loop. `NearSeries` is what a step keeps: the last term is within two units of
  the exact one, because its error is halved before a new unit comes in, and the sum collects two
  units for each term. The step that stops is the one at which both parts meet
  (`NearSeries.abs_sum_sub_le`).
* The whole part of the exponent. The shift and the last product lose a unit each
  (`abs_halfPower_sub_le`).

`halfPower_near` is the bound that remains, for every exponent.
-/

set_option autoImplicit false
set_option relaxedAutoImplicit false

namespace ConcentratedPool

/-! ### The exact power -/

/-- A power of one half, without rounding. -/
noncomputable def exactHalfPower (x : ℝ) : ℝ := 2 ^ (-x)

theorem exactHalfPower_zero : exactHalfPower 0 = 1 := by simp [exactHalfPower]

theorem exactHalfPower_add (x y : ℝ) :
    exactHalfPower (x + y) = exactHalfPower x * exactHalfPower y := by
  unfold exactHalfPower
  rw [neg_add, Real.rpow_add two_pos]

/-- A power of one half with an exponent that is not negative is a weight between zero and one. -/
theorem exactHalfPower_mem {x : ℝ} (hx : 0 ≤ x) : 0 < exactHalfPower x ∧ exactHalfPower x ≤ 1 :=
  ⟨Real.rpow_pos_of_pos two_pos _,
    Real.rpow_le_one_of_one_le_of_nonpos one_le_two (neg_nonpos.mpr hx)⟩

/-! ### The exact series -/

section Series

variable {φ : ℝ}

/-- The `j`-th term of the series of `(1 - 1/2) ^ φ`, without rounding. -/
noncomputable def exactTerm (φ : ℝ) : ℕ → ℝ
  | 0 => 1
  | j + 1 => exactTerm φ j * ((j - φ) / (2 * (j + 1)))

/-- The terms are those of the binomial series. -/
theorem exactTerm_eq (φ : ℝ) (j : ℕ) : exactTerm φ j = Ring.choose φ j * (-1 / 2) ^ j := by
  induction j with
  | zero => simp [exactTerm]
  | succ j ih =>
    have hchoose : Ring.choose φ (j + 1) = Ring.choose φ j * ((φ - j) / (j + 1)) := by
      rw [Ring.choose_eq_smul, Ring.choose_eq_smul, descPochhammer_succ_right,
        Polynomial.smeval_mul, Polynomial.smeval_sub, Polynomial.smeval_X,
        Polynomial.smeval_natCast, Nat.factorial_succ]
      have hpos : ((j : ℝ) + 1) ≠ 0 := by positivity
      have hfact : (j.factorial : ℝ) ≠ 0 := by positivity
      simp only [smul_eq_mul]
      push_cast
      field_simp
      simp
    rw [exactTerm, ih, hchoose, pow_succ]
    have hpos : ((j : ℝ) + 1) ≠ 0 := by positivity
    field_simp
    ring

/-- The series is that of the power. -/
theorem hasSum_exactTerm (φ : ℝ) : HasSum (exactTerm φ) (exactHalfPower φ) := by
  have hball : (-1 / 2 : ℝ) ∈ Metric.eball (0 : ℝ) 1 := by
    rw [← ENNReal.ofReal_one, Metric.eball_ofReal]
    norm_num [abs_lt]
  have hsum := (Real.one_add_rpow_hasFPowerSeriesOnBall_zero (a := φ)).hasSum hball
  have hvalue : (1 + (0 + -1 / 2) : ℝ) ^ φ = exactHalfPower φ := by
    rw [exactHalfPower, Real.rpow_neg two_pos.le, ← Real.inv_rpow two_pos.le]
    norm_num
  have hterms : exactTerm φ = fun j ↦ binomialSeries ℝ φ j fun _ ↦ -1 / 2 := by
    ext j
    rw [exactTerm_eq, binomialSeries_apply, smul_eq_mul, List.ofFn_const, List.prod_replicate]
  rwa [hterms, ← hvalue]

/-- For a fraction, a term is at most half of the one before it. -/
theorem abs_factor_le (hφ : 0 ≤ φ) (hone : φ ≤ 1) (j : ℕ) :
    |(j - φ) / (2 * (j + 1))| ≤ 1 / 2 := by
  have hj : (0 : ℝ) ≤ j := j.cast_nonneg
  have hnumerator : |j - φ| ≤ j + 1 := abs_le.mpr ⟨by linarith, by linarith⟩
  rw [abs_div, abs_of_pos (by positivity : (0 : ℝ) < 2 * (j + 1)),
    div_le_div_iff₀ (by positivity) two_pos, one_mul]
  linarith

theorem abs_exactTerm_succ_le (hφ : 0 ≤ φ) (hone : φ ≤ 1) (j : ℕ) :
    |exactTerm φ (j + 1)| ≤ |exactTerm φ j| / 2 := by
  calc |exactTerm φ (j + 1)| = |exactTerm φ j| * |(j - φ) / (2 * (j + 1))| := abs_mul _ _
    _ ≤ |exactTerm φ j| * (1 / 2) := mul_le_mul_of_nonneg_left (abs_factor_le hφ hone j) (abs_nonneg _)
    _ = |exactTerm φ j| / 2 := by ring

/-- The terms after the `j`-th are below those of a geometric series. -/
theorem abs_exactTerm_add_le (hφ : 0 ≤ φ) (hone : φ ≤ 1) (j n : ℕ) :
    |exactTerm φ (n + (j + 1))| ≤ |exactTerm φ j| / 2 / 2 ^ n := by
  induction n with
  | zero =>
    rw [pow_zero, div_one, Nat.zero_add]
    exact abs_exactTerm_succ_le hφ hone j
  | succ n ih =>
    rw [Nat.add_right_comm, pow_succ, ← div_div]
    exact (abs_exactTerm_succ_le hφ hone _).trans (div_le_div_of_nonneg_right ih two_pos.le)

/-- What is left of the series after the `j`-th term is at most that term. -/
theorem abs_sub_sum_exactTerm_le (hφ : 0 ≤ φ) (hone : φ ≤ 1) (j : ℕ) :
    |exactHalfPower φ - ∑ i ∈ Finset.range (j + 1), exactTerm φ i| ≤ |exactTerm φ j| := by
  have hrest := (hasSum_nat_add_iff' (j + 1)).mpr (hasSum_exactTerm φ)
  exact hrest.norm_le_of_bounded (hasSum_geometric_two' |exactTerm φ j|)
    fun n ↦ abs_exactTerm_add_le hφ hone j n

end Series

/-! ### The rounding of the loop -/

section Loop

variable {f term total next total' sum : SignedDecimal} {j steps : ℕ}

/-- A computed term is what exact arithmetic makes of the term before it, up to a unit. -/
theorem abs_next_sub_le (hsign : 0 ≤ termNumerator f term j)
    (hnext : next.raw = -(termNumerator f term j / (2 * (j + 1) * Decimal.scale))) :
    |next.toRat - term.toRat * ((j - f.toRat) / (2 * (j + 1)))| ≤ Decimal.ulp := by
  have hdivisor : (2 * (j + 1) * Decimal.scale : ℤ) ≠ 0 := by
    rw [mul_assoc]
    exact (mul_pos two_pos (mul_pos (by omega) (by decide))).ne'
  have hround := abs_tdiv_sub_le (termNumerator f term j) _ hdivisor
  rw [Int.tdiv_eq_ediv_of_nonneg hsign] at hround
  have hscale := Decimal.cast_scale_pos
  have hindex : ((j : ℚ) + 1) ≠ 0 := by positivity
  have hdiff : next.toRat - term.toRat * ((j - f.toRat) / (2 * (j + 1))) =
      -(((termNumerator f term j / (2 * (j + 1) * Decimal.scale) : ℤ) : ℚ) -
        (termNumerator f term j : ℚ) / ((2 * (j + 1) * Decimal.scale : ℤ) : ℚ)) /
          Decimal.scale := by
    rw [SignedDecimal.toRat, hnext]
    unfold SignedDecimal.toRat termNumerator
    push_cast
    field_simp
    ring
  rw [hdiff, abs_div, abs_neg, abs_of_pos hscale, Decimal.ulp]
  exact div_le_div_of_nonneg_right hround hscale.le

/-- A fraction lies between zero and one. -/
theorem toRat_mem_of_raw (hf : 0 ≤ f.raw) (hone : f.raw ≤ Decimal.scale) :
    0 ≤ (f.toRat : ℝ) ∧ (f.toRat : ℝ) ≤ 1 := by
  have hscale := Decimal.cast_scale_pos
  have hlow : 0 ≤ f.toRat := div_nonneg (by exact_mod_cast hf) hscale.le
  have hhigh : f.toRat ≤ 1 := (div_le_one hscale).mpr (by exact_mod_cast hone)
  exact ⟨by exact_mod_cast hlow, by exact_mod_cast hhigh⟩

/-- A magnitude that is compared with a decimal. -/
theorem abs_toRat_le_of_lt {a : SignedDecimal} {b : Decimal} (h : a.abs < b.toSigned) :
    |a.toRat| ≤ b.toRat := by
  have hscale := Decimal.cast_scale_pos
  have hraw : |(a.raw : ℚ)| ≤ b.raw := by
    rw [← Int.cast_abs, Int.abs_eq_natAbs]
    exact_mod_cast (SignedDecimal.abs_lt_toSigned.mp h).le
  rw [SignedDecimal.toRat, Decimal.toRat, abs_div, abs_of_pos hscale]
  exact div_le_div_of_nonneg_right hraw hscale.le

/-- How far the sum of the loop can be from the power: the tolerance, for the terms left out, and two
units of the last place for each of the 64 terms that there can be, and for the last one again. -/
def seriesError : ℚ := Limits.halfPowerTolerance.toRat + 2 * Decimal.ulp * 65

theorem seriesError_nonneg : (0 : ℝ) ≤ seriesError := by
  have hrat : 0 ≤ seriesError := by
    norm_num [seriesError, Decimal.ulp, Decimal.toRat, Limits.halfPowerTolerance, Decimal.scale]
  exact_mod_cast hrat

/-- The tolerance is most of the error: a few more units leave it far below twice the tolerance. -/
theorem seriesError_add_le : (seriesError + 3 * Decimal.ulp : ℝ) ≤ 2 / 10 ^ 10 := by
  have hrat : seriesError + 3 * Decimal.ulp ≤ 2 / 10 ^ 10 := by
    norm_num [seriesError, Decimal.ulp, Decimal.toRat, Limits.halfPowerTolerance, Decimal.scale]
  have hcast := Rat.cast_le (K := ℝ).mpr hrat
  push_cast at hcast
  exact hcast

/-- What the loop holds after `j` terms is what it would hold without rounding, up to two units of
the last place for each term. -/
structure NearSeries (f : SignedDecimal) (j : ℕ) (term total : SignedDecimal) : Prop where
  term : |(term.toRat : ℝ) - exactTerm f.toRat j| ≤ 2 * Decimal.ulp
  total : |(total.toRat : ℝ) - ∑ i ∈ Finset.range (j + 1), exactTerm f.toRat i| ≤
    2 * Decimal.ulp * j

namespace NearSeries

/-- The loop starts without an error. -/
theorem start (f : SignedDecimal) : NearSeries f 0 .one .one := by
  have hulp : (0 : ℝ) ≤ Decimal.ulp := by exact_mod_cast Decimal.ulp_nonneg
  constructor
  · simpa [SignedDecimal.toRat_one, exactTerm] using hulp
  · simp [SignedDecimal.toRat_one, exactTerm]

/-- One step of the loop: the error of the last term is halved, and a new unit comes in. -/
theorem advance (h : NearSeries f j term total) (hf : 0 ≤ (f.toRat : ℝ))
    (hone : (f.toRat : ℝ) ≤ 1)
    (hnext : |next.toRat - term.toRat * ((j - f.toRat) / (2 * (j + 1)))| ≤ Decimal.ulp)
    (htotal : (total + next : Except Fault SignedDecimal) = .ok total') :
    NearSeries f (j + 1) next total' := by
  have hround : |(next.toRat : ℝ) - term.toRat * ((j - f.toRat) / (2 * (j + 1)))| ≤ Decimal.ulp := by
    exact_mod_cast hnext
  have hterm : |(next.toRat : ℝ) - exactTerm f.toRat (j + 1)| ≤ 2 * Decimal.ulp := by
    have hcarried : |((term.toRat : ℝ) - exactTerm f.toRat j) * ((j - f.toRat) / (2 * (j + 1)))| ≤
        2 * Decimal.ulp * (1 / 2) := by
      rw [abs_mul]
      exact mul_le_mul h.term (abs_factor_le hf hone j) (abs_nonneg _)
        ((abs_nonneg _).trans h.term)
    have hsplit : (next.toRat : ℝ) - exactTerm f.toRat (j + 1) =
        (next.toRat - term.toRat * ((j - f.toRat) / (2 * (j + 1)))) +
          (term.toRat - exactTerm f.toRat j) * ((j - f.toRat) / (2 * (j + 1))) := by
      rw [exactTerm]
      ring
    rw [hsplit]
    refine (abs_add_le _ _).trans ?_
    linarith
  refine ⟨hterm, ?_⟩
  have hsplit : (total'.toRat : ℝ) - ∑ i ∈ Finset.range (j + 1 + 1), exactTerm f.toRat i =
      (total.toRat - ∑ i ∈ Finset.range (j + 1), exactTerm f.toRat i) +
        (next.toRat - exactTerm f.toRat (j + 1)) := by
    rw [SignedDecimal.toRat_add htotal, Finset.sum_range_succ]
    push_cast
    ring
  rw [hsplit]
  refine (abs_add_le _ _).trans ?_
  push_cast
  linarith [h.total]

/-- After a term below the tolerance the sum is near to the power: the rest of the series is at most
the exact term, and there are no more than two units of rounding for each term. -/
theorem abs_sub_le_of_small (h : NearSeries f j term total) (hf : 0 ≤ (f.toRat : ℝ))
    (hone : (f.toRat : ℝ) ≤ 1) (hj : j ≤ Limits.maxIterations)
    (hsmall : term.abs < Limits.halfPowerTolerance.toSigned) :
    |total.toRat - exactHalfPower f.toRat| ≤ seriesError := by
  have hulp : (0 : ℝ) ≤ Decimal.ulp := by exact_mod_cast Decimal.ulp_nonneg
  have hrest := abs_sub_sum_exactTerm_le hf hone j
  have hterm : |(term.toRat : ℝ)| ≤ Limits.halfPowerTolerance.toRat := by
    exact_mod_cast abs_toRat_le_of_lt hsmall
  have hexact : |exactTerm f.toRat j| ≤ |(term.toRat : ℝ)| + 2 * Decimal.ulp := by
    have hdistance := h.term
    rw [abs_sub_comm] at hdistance
    linarith [abs_sub_abs_le_abs_sub (exactTerm f.toRat j) (term.toRat : ℝ)]
  have hrounded : 2 * Decimal.ulp * (j : ℝ) ≤ 2 * Decimal.ulp * 64 :=
    mul_le_mul_of_nonneg_left (by exact_mod_cast hj) (by linarith)
  have htriangle := abs_sub_le (total.toRat : ℝ)
    (∑ i ∈ Finset.range (j + 1), exactTerm f.toRat i) (exactHalfPower f.toRat)
  rw [abs_sub_comm] at hrest
  unfold seriesError
  push_cast
  linarith [h.total]

/-- The loop stops with a sum near to the power. The invariant carries the roundings of all terms
to the step that stops; there the term is below the tolerance, and so is the rest of the series. -/
theorem abs_sum_sub_le (h : NearSeries f j term total) (hp : PartialSum f j term total)
    (hf : 0 ≤ f.raw) (hone : f.raw ≤ Decimal.scale)
    (hsteps : j + steps = Limits.maxIterations)
    (hsum : binomialSum f steps (j + 1) term total = .ok sum) :
    |sum.toRat - exactHalfPower f.toRat| ≤ seriesError := by
  induction steps generalizing j term total with
  | zero => cases hsum
  | succ steps ih =>
    have hlast : j < Limits.maxIterations := by omega
    obtain ⟨hlow, hhigh⟩ := toRat_mem_of_raw hf hone
    obtain ⟨next, total', hnext, htotal, -, hstep⟩ := hp.exists_term hlast hf hone
    obtain ⟨next', hnext', hraw⟩ := exists_binomialTerm hlast hf hone hp.natAbs_le hp.sign
    obtain rfl : next' = next := Except.ok.inj (hnext'.symm.trans hnext)
    have hnear := h.advance hlow hhigh (abs_next_sub_le hp.sign hraw) htotal
    rw [binomialSum, hnext, ok_bind, htotal, ok_bind] at hsum
    rcases branch_eq_ok.mp hsum with ⟨hsmall, hreturn⟩ | ⟨-, hgo⟩
    · obtain rfl := pure_eq_ok.mp hreturn
      exact hnear.abs_sub_le_of_small hlow hhigh (by omega) hsmall
    · exact ih hnear hstep (by omega) hgo

end NearSeries

end Loop

/-! ### The power -/

/-- A product is near to the product of two values of at most one if its factors are near to
them. -/
theorem abs_mul_sub_mul_le {a b x y ε δ : ℝ} (ha : |a - x| ≤ ε) (hb : |b - y| ≤ δ) (hbLow : 0 ≤ b)
    (hbHigh : b ≤ 1) (hxLow : 0 ≤ x) (hxHigh : x ≤ 1) : |a * b - x * y| ≤ ε + δ := by
  have hsplit : a * b - x * y = (a - x) * b + x * (b - y) := by ring
  have hfirst : |(a - x) * b| ≤ ε := by
    rw [abs_mul, abs_of_nonneg hbLow]
    exact (mul_le_of_le_one_right (abs_nonneg _) hbHigh).trans ha
  have hsecond : |x * (b - y)| ≤ δ := by
    rw [abs_mul, abs_of_nonneg hxLow]
    exact (mul_le_of_le_one_left (abs_nonneg _) hxHigh).trans hb
  rw [hsplit]
  exact (abs_add_le _ _).trans (add_le_add hfirst hsecond)

/-- A whole number of halvings, by a shift, loses less than a unit. -/
theorem abs_shifted_sub_le {shifted : Decimal} {n : ℕ}
    (h : shifted.raw = Decimal.one.raw >>> n) :
    |shifted.toRat - exactHalfPower n| ≤ Decimal.ulp := by
  have hscale := Decimal.cast_scale_pos
  obtain ⟨hle, hlt⟩ := Decimal.floor_div_bounds Decimal.scale (2 ^ n)
  have hraw : shifted.raw = Decimal.scale / 2 ^ n := h.trans (Nat.shiftRight_eq_div_pow _ _)
  have hexact : (1 / 2 ^ n : ℚ) = Decimal.scale / (2 ^ n : ℕ) / Decimal.scale := by
    push_cast
    field_simp
  have hnear : |shifted.toRat - 1 / 2 ^ n| ≤ Decimal.ulp := by
    rw [Decimal.toRat, hraw, hexact, Decimal.ulp, ← sub_div, abs_div, abs_of_pos hscale]
    refine div_le_div_of_nonneg_right ?_ hscale.le
    exact abs_le.mpr ⟨by linarith, by linarith⟩
  have hpower : exactHalfPower n = (1 / 2 ^ n : ℚ) := by
    rw [exactHalfPower, Real.rpow_neg two_pos.le, Real.rpow_natCast]
    push_cast
    rw [one_div]
  rw [hpower]
  exact_mod_cast hnear

/-- An exponent is its whole part and its fraction. -/
theorem toRat_eq_floor_add {power fraction : Decimal}
    (h : fraction.raw = power.raw % Decimal.scale) :
    power.toRat = power.floor + fraction.toRat := by
  have hscale := Decimal.cast_scale_pos.ne'
  have hraw : (power.raw : ℚ) = Decimal.scale * power.floor + fraction.raw := by
    rw [h]
    exact_mod_cast (Nat.div_add_mod power.raw Decimal.scale).symm
  unfold Decimal.toRat
  rw [hraw, add_div, mul_div_cancel_left₀ _ hscale]

/-- The power with a fraction as exponent is near to the exact one, and at most one. -/
theorem abs_fractional_sub_le {fraction value : Decimal} {sum : SignedDecimal}
    (hfraction : fraction.raw ≤ Decimal.scale)
    (hsum : binomialSum fraction.toSigned Limits.maxIterations 1 .one .one = .ok sum)
    (hvalue : sum.toUnsigned = .ok value) :
    |value.toRat - exactHalfPower fraction.toRat| ≤ seriesError ∧ value.toRat ≤ 1 := by
  constructor
  · have hnear := (NearSeries.start fraction.toSigned).abs_sum_sub_le
      (PartialSum.start (Int.natCast_nonneg _)) (Int.natCast_nonneg _) (Int.ofNat_le.mpr hfraction)
      (zero_add _) hsum
    rwa [SignedDecimal.toRat_of_toUnsigned hvalue, ← SignedDecimal.toRat_toSigned]
  · obtain ⟨sum', hsum', -, hone⟩ := exists_binomialSum hfraction
    obtain rfl : sum' = sum := Except.ok.inj (hsum'.symm.trans hsum)
    have hscale := Decimal.cast_scale_pos
    rw [SignedDecimal.toRat_of_toUnsigned hvalue, SignedDecimal.toRat, div_le_one hscale]
    exact_mod_cast hone

/-- A computed power of one half is near to the exact one. -/
theorem abs_halfPower_sub_le {power v : Decimal} (h : halfPower power = .ok v) :
    |v.toRat - exactHalfPower power.toRat| ≤ seriesError + 2 * Decimal.ulp := by
  let fraction : Decimal :=
    ⟨power.raw % Decimal.scale, (Nat.mod_le _ _).trans power.raw_le⟩
  let shifted : Decimal :=
    ⟨Decimal.one.raw >>> power.floor, (Nat.shiftRight_le _ _).trans Decimal.one.raw_le⟩
  have hshifted : |shifted.toRat - exactHalfPower power.floor| ≤ Decimal.ulp :=
    abs_shifted_sub_le rfl
  have hulp : (0 : ℝ) ≤ Decimal.ulp := by exact_mod_cast Decimal.ulp_nonneg
  have hpower : (power.toRat : ℝ) = power.floor + fraction.toRat := by
    exact_mod_cast toRat_eq_floor_add rfl
  rw [hpower, exactHalfPower_add]
  unfold halfPower at h
  dsimp only at h
  rcases branch_eq_ok.mp h with ⟨hzero, hwhole⟩ | ⟨-, hproduct⟩
  · -- A whole exponent: the shift is all.
    obtain rfl : shifted = v := pure_eq_ok.mp hwhole
    have hnone : fraction.toRat = 0 := by
      rw [Decimal.toRat, Decimal.isZero_eq_true.mp hzero, Nat.cast_zero, zero_div]
    rw [hnone, Rat.cast_zero, exactHalfPower_zero, mul_one]
    linarith [seriesError_nonneg]
  · simp only [bind_eq_ok] at hproduct
    obtain ⟨sum, hsum, value, hvalue, hv⟩ := hproduct
    have hfraction : fraction.raw ≤ Decimal.scale := (Nat.mod_lt _ Decimal.scale_pos).le
    obtain ⟨hseries, hone⟩ := abs_fractional_sub_le hfraction hsum hvalue
    have hweight := exactHalfPower_mem (Nat.cast_nonneg' (α := ℝ) power.floor)
    have hfactors := abs_mul_sub_mul_le hshifted hseries (by exact_mod_cast value.toRat_nonneg)
      (by exact_mod_cast hone) hweight.1.le hweight.2
    have hround : |(v.toRat : ℝ) - shifted.toRat * value.toRat| ≤ Decimal.ulp := by
      obtain ⟨hle, hlt⟩ := Decimal.toRat_mul_bounds hv
      have hnear : |v.toRat - shifted.toRat * value.toRat| ≤ Decimal.ulp :=
        abs_le.mpr ⟨by linarith, by linarith [Decimal.ulp_nonneg]⟩
      exact_mod_cast hnear
    linarith [abs_sub_le (v.toRat : ℝ) (shifted.toRat * value.toRat)
      (exactHalfPower power.floor * exactHalfPower fraction.toRat)]

/-- The accuracy of the powers of one half. Every power is given, and is within `2 · 10⁻¹⁰` of the
exact one. -/
theorem halfPower_near (power : Decimal) :
    ∃ v, halfPower power = .ok v ∧
      |(v.toRat : ℝ) - 2 ^ (-(power.toRat : ℝ))| ≤ 2 / 10 ^ 10 := by
  have hulp : (0 : ℝ) ≤ Decimal.ulp := by exact_mod_cast Decimal.ulp_nonneg
  obtain ⟨v, hv, -⟩ := exists_halfPower power
  exact ⟨v, hv, (abs_halfPower_sub_le hv).trans (by linarith [seriesError_add_le])⟩

end ConcentratedPool
