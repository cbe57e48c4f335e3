import ConcentratedPool.Market.Valuation
import ConcentratedPool.Proofs.CheckedArithmetic
import Mathlib.Data.Nat.Log

/-!
# The range of valuations

The float nearest to a quotient exists unless the quotient is beyond the largest float. Its last bit
is placed so that the mantissa has at most 54 bits (`Numeric.roundDiv_shifted_le`) and the exponent
follows from the sizes of numerator and denominator (`Numeric.lastBitExponent_mem`), so a numerator
of at most 1000 bits always leaves a float (`Numeric.exists_nearestQuotient`). A decimal has 256
bits, and a token amount that is the sum of as many decimals as a machine can count still has a
value in whole tokens (`Market.exists_wholeTokens`).
-/

set_option autoImplicit false
set_option relaxedAutoImplicit false

namespace ConcentratedPool

namespace Numeric

variable {n d : ℕ}

/-- A quotient that is at most a whole number is not rounded beyond it. -/
theorem roundDiv_le {k : ℕ} (hd : 0 < d) (h : n ≤ k * d) : roundDiv n d ≤ k := by
  have hquotient : n / d ≤ k := Nat.div_le_of_le_mul (by rwa [Nat.mul_comm] at h)
  unfold roundDiv
  dsimp only
  rcases Nat.lt_or_eq_of_le hquotient with hlt | heq
  · split_ifs
    · exact hquotient
    · exact hlt
  · -- The quotient is exact here, so nothing is rounded.
    have hexact : n % d = 0 := by
      have hdivision := Nat.div_add_mod n d
      rw [heq, Nat.mul_comm] at hdivision
      omega
    rw [if_pos (.inl (by rw [hexact]; exact hd))]
    exact hquotient

/-- The last bit of the nearest float is at most 53 places below the first bit of the quotient, and
52 places below it or the last bit of any float at the most. -/
theorem lastBitExponent_mem (n d : ℕ) :
    (n.log2 : ℤ) - d.log2 - 53 ≤ lastBitExponent n d ∧
      lastBitExponent n d ≤ max ((n.log2 : ℤ) - d.log2 - 52) (-1074) ∧
      -1074 ≤ lastBitExponent n d := by
  unfold lastBitExponent
  dsimp only
  split_ifs <;> omega

/-- The mantissa of the nearest float has at most 54 bits. -/
theorem roundDiv_shifted_le (hd : 0 < d) :
    roundDiv (n * Nat.pow 2 (-lastBitExponent n d).toNat)
      (d * Nat.pow 2 (lastBitExponent n d).toNat) ≤ 2 ^ 54 := by
  obtain ⟨hlow, -, -⟩ := lastBitExponent_mem n d
  generalize lastBitExponent n d = e at hlow
  have hbits : n.log2 + 1 + (-e).toNat ≤ 54 + (d.log2 + e.toNat) := by omega
  refine roundDiv_le (Nat.mul_pos hd (Nat.pow_pos (by decide))) ?_
  calc n * 2 ^ (-e).toNat ≤ 2 ^ (n.log2 + 1) * 2 ^ (-e).toNat :=
        Nat.mul_le_mul_right _ Nat.lt_log2_self.le
    _ = 2 ^ (n.log2 + 1 + (-e).toNat) := (Nat.pow_add ..).symm
    _ ≤ 2 ^ (54 + (d.log2 + e.toNat)) := Nat.pow_le_pow_right (by decide) hbits
    _ = 2 ^ 54 * (2 ^ d.log2 * 2 ^ e.toNat) := by rw [Nat.pow_add, Nat.pow_add]
    _ ≤ 2 ^ 54 * (d * 2 ^ e.toNat) :=
        Nat.mul_le_mul_left _ (Nat.mul_le_mul_right _ (Nat.log2_self_le hd.ne'))

/-- The bits of the float nearest to a quotient of at most 1000 bits are below those of infinity. -/
theorem nearestBits_lt (hd : 0 < d) (hn : n.log2 < 1000) : nearestBits n d < infinityBits := by
  obtain ⟨-, hhigh, -⟩ := lastBitExponent_mem n d
  have hmantissa := roundDiv_shifted_le (n := n) hd
  have hexponent : (lastBitExponent n d + 1074).toNat ≤ 2021 := by omega
  have hshifted := Nat.mul_le_mul_right hiddenBit hexponent
  have hroom : 2021 * hiddenBit + 2 ^ 54 < infinityBits := by decide
  unfold nearestBits
  dsimp only
  omega

/-- A quotient of a numerator of at most 1000 bits has a nearest float. -/
theorem exists_nearestQuotient {n : ℤ} (hd : 0 < d) (hn : n.natAbs.log2 < 1000) :
    ∃ x, nearestQuotient n d = some x := by
  have hbits : (if n.natAbs = 0 then 0 else nearestBits n.natAbs d) < infinityBits := by
    split_ifs
    · decide
    · exact nearestBits_lt hd hn
  unfold nearestQuotient nearestRatio
  dsimp only
  rw [if_pos hbits]
  exact ⟨_, rfl⟩

end Numeric

namespace Market

/-- The largest token amount that a simulation ever has to value: as many of the largest decimals as
a price path can have entries. -/
def maxAmount : ℕ := 2 ^ 64 * Decimal.maxRaw

/-- A token amount up to that one has a value in whole tokens. -/
theorem exists_wholeTokens {amount : ℤ} (precision : ℤ) (h : amount.natAbs ≤ maxAmount) :
    ∃ x, wholeTokens amount precision = .ok x := by
  have hlog : amount.natAbs.log2 ≤ maxAmount.log2 := by
    rw [Nat.log2_eq_log_two, Nat.log2_eq_log_two]
    exact Nat.log_mono_right h
  have hbits : amount.natAbs.log2 < 1000 := Nat.lt_of_le_of_lt hlog (by decide)
  unfold wholeTokens
  by_cases hsign : precision < 0
  · obtain ⟨x, hx⟩ := Numeric.exists_nearestQuotient Nat.one_pos hbits
    rw [if_pos hsign, floatOfInt, Numeric.nearestInt, hx]
    exact ⟨_, rfl⟩
  · have hunit : 0 < Nat.pow 10 precision.toNat := Nat.pow_pos (by decide)
    obtain ⟨x, hx⟩ := Numeric.exists_nearestQuotient hunit hbits
    rw [if_neg hsign, hx]
    exact ⟨x, rfl⟩

end Market

end ConcentratedPool
