import ConcentratedPool.Proofs.CheckedArithmetic
import ConcentratedPool.Proofs.ExactCurve
import Mathlib.Data.Nat.Sqrt
import Mathlib.Logic.Function.Iterate

/-!
# Square roots

Newton's iteration on natural numbers finds the integer square root (`Numeric.integerRoot_eq`): its
first guess is not below the root (`Numeric.lt_succ_rootStart_sq`), no step passes the root from
above (`Numeric.lt_succ_rootStep_sq`), and the iteration ends where a step would not go down
(`Numeric.descendToRoot_sq_le`). The same two facts keep the iterates positive, so the loop comes to
its end after finitely many steps and never divides by zero (`Numeric.exists_endsAfter`).

The square root of a decimal is the integer root of its raw value times the raw value of one. It is
adjoint to squaring, `w ≤ √v` exactly when `w² ≤ v` (`Decimal.le_sqrt_iff`), which makes it the
largest decimal whose exact square is not above `v`, and monotone (`Decimal.sqrt_exact`).
-/

set_option autoImplicit false
set_option relaxedAutoImplicit false

namespace ConcentratedPool

namespace Numeric

variable {n x : ℕ}

/-! ### Newton's iteration on natural numbers -/

/-- The descent ends at or below the root. -/
theorem descendToRoot_sq_le (n x : ℕ) : descendToRoot n x * descendToRoot n x ≤ n := by
  fun_induction descendToRoot n x with
  | case1 x _ ih => exact ih
  | case2 x hstop =>
    have hle : x ≤ n / x := by
      unfold rootStep at hstop
      omega
    exact (Nat.mul_le_mul_left x hle).trans (Nat.mul_div_le n x)

/-- A step of the descent does not pass the root, because the geometric mean is not above the
arithmetic one. -/
theorem lt_succ_rootStep_sq (hx : 0 < x) : n < (rootStep n x + 1) * (rootStep n x + 1) := by
  have hquotient : n < x * (n / x + 1) := Nat.lt_mul_div_succ n hx
  have hmean : x + n / x + 1 ≤ 2 * (rootStep n x + 1) := by
    unfold rootStep
    omega
  have hsq : (x + n / x + 1) * (x + n / x + 1) ≤
      2 * (rootStep n x + 1) * (2 * (rootStep n x + 1)) := Nat.mul_le_mul hmean hmean
  have hgeometric : 4 * (x * (n / x + 1)) ≤ (x + n / x + 1) * (x + n / x + 1) := by
    generalize n / x = q
    zify
    nlinarith [sq_nonneg ((x : ℤ) - (q + 1))]
  linarith

/-- A descent from at or above the root ends there. -/
theorem lt_succ_descendToRoot_sq (h : n < (x + 1) * (x + 1)) :
    n < (descendToRoot n x + 1) * (descendToRoot n x + 1) := by
  fun_induction descendToRoot n x with
  | case1 x hless ih => exact ih (lt_succ_rootStep_sq (Nat.zero_lt_of_lt hless))
  | case2 x _ => exact h

/-- The first guess is not below the root. -/
theorem lt_succ_rootStart_sq (n : ℕ) : n < (rootStart n + 1) * (rootStart n + 1) := by
  have hlength : n < 2 ^ bitLength n := by
    unfold bitLength
    split_ifs with hzero
    · omega
    · exact Nat.lt_log2_self
  have hhalf : bitLength n ≤ (bitLength n + 1) / 2 + (bitLength n + 1) / 2 := by omega
  have hstart : 2 ^ bitLength n ≤ rootStart n * rootStart n := by
    unfold rootStart
    rw [Nat.pow_eq, ← pow_add]
    exact Nat.pow_le_pow_right (by norm_num) hhalf
  have hgrown : rootStart n * rootStart n ≤ (rootStart n + 1) * (rootStart n + 1) :=
    Nat.mul_le_mul (Nat.le_succ _) (Nat.le_succ _)
  omega

/-- The iteration finds the integer square root. -/
theorem integerRoot_eq (n : ℕ) : integerRoot n = n.sqrt := by
  unfold integerRoot
  split_ifs with hzero
  · rw [hzero, Nat.sqrt_zero]
  · exact Nat.eq_sqrt.mpr ⟨descendToRoot_sq_le n _,
      lt_succ_descendToRoot_sq (lt_succ_rootStart_sq n)⟩

/-! ### The end of the iteration -/

/-- Steps from `x` come to their end at `r` after `k` of them: each of these goes down, one more
would not, and none divides by zero. -/
structure EndsAfter (n x k r : ℕ) : Prop where
  last : (rootStep n)^[k] x = r
  down : ∀ i < k, (rootStep n)^[i + 1] x < (rootStep n)^[i] x
  stop : r ≤ rootStep n r
  pos : ∀ i ≤ k, 0 < (rootStep n)^[i] x

/-- One step more in front. -/
theorem EndsAfter.of_step {k r : ℕ} (hless : rootStep n x < x)
    (h : EndsAfter n (rootStep n x) k r) : EndsAfter n x (k + 1) r := by
  refine ⟨h.last, fun i hi ↦ ?_, h.stop, fun i hi ↦ ?_⟩
  · cases i with
    | zero => exact hless
    | succ i => exact h.down i (Nat.lt_of_succ_lt_succ hi)
  · cases i with
    | zero => exact Nat.zero_lt_of_lt hless
    | succ i => exact h.pos i (Nat.le_of_succ_le_succ hi)

/-- A descent from at or above the root of a positive number comes to its end. -/
theorem exists_endsAfter (hn : 0 < n) (h : n < (x + 1) * (x + 1)) :
    ∃ k, EndsAfter n x k (descendToRoot n x) := by
  fun_induction descendToRoot n x with
  | case1 x hless ih =>
    obtain ⟨k, hk⟩ := ih (lt_succ_rootStep_sq (Nat.zero_lt_of_lt hless))
    exact ⟨k + 1, hk.of_step hless⟩
  | case2 x hstop =>
    have hx : 0 < x := by
      by_contra hzero
      rw [Nat.eq_zero_of_not_pos hzero] at h
      omega
    refine ⟨0, rfl, fun i hi ↦ absurd hi (Nat.not_lt_zero i), not_lt.mp hstop, fun i hi ↦ ?_⟩
    rw [Nat.le_zero.mp hi]
    exact hx

end Numeric

namespace Decimal

variable {v w r s : Decimal}

/-! ### Square roots of decimals -/

/-- A decimal has the square root `r` exactly when the raw value of `r` is the integer root. -/
theorem sqrt_eq_ok : v.sqrt = .ok r ↔ r.raw = Nat.sqrt (v.raw * scale) := by
  rw [sqrt, Numeric.integerRoot_eq]
  exact ofNatRaw_eq_ok

/-- A square root is never out of range. -/
theorem exists_sqrt (v : Decimal) : ∃ r, v.sqrt = .ok r := by
  have hraw : v.raw * scale < (maxRaw + 1) * (maxRaw + 1) :=
    Nat.mul_lt_mul'' (Nat.lt_succ_of_le v.raw_le) (by decide)
  exact ⟨⟨_, Nat.le_of_lt_succ (Nat.sqrt_lt.mpr hraw)⟩, sqrt_eq_ok.mpr rfl⟩

/-- The exact square of a decimal in raw units. -/
theorem sq_toRat_le_toRat : w.toRat ^ 2 ≤ v.toRat ↔ w.raw * w.raw ≤ v.raw * scale := by
  have hscale := cast_scale_pos
  unfold toRat
  rw [div_pow, div_le_div_iff₀ (by positivity) hscale, sq (scale : ℚ), ← mul_assoc,
    mul_le_mul_iff_of_pos_right hscale, sq]
  exact_mod_cast Iff.rfl

/-- Taking the root is adjoint to squaring. -/
theorem le_sqrt_iff (h : v.sqrt = .ok r) : w ≤ r ↔ w.toRat ^ 2 ≤ v.toRat := by
  rw [sq_toRat_le_toRat, le_def, sqrt_eq_ok.mp h]
  exact Nat.le_sqrt

/-- The square root is the largest decimal whose exact square is not above the value. -/
theorem isGreatest_sqrt (h : v.sqrt = .ok r) : IsGreatest {w : Decimal | w.toRat ^ 2 ≤ v.toRat} r :=
  ⟨(le_sqrt_iff h).mp (Nat.le_refl r.raw), fun _ hw ↦ (le_sqrt_iff h).mpr hw⟩

/-- The square root is monotone. -/
theorem sqrt_mono (hvw : v ≤ w) (hr : v.sqrt = .ok r) (hs : w.sqrt = .ok s) : r ≤ s := by
  rw [le_def, sqrt_eq_ok.mp hr, sqrt_eq_ok.mp hs]
  exact Nat.sqrt_le_sqrt (Nat.mul_le_mul_right scale hvw)

/-- Square roots of whole numbers and of decimals. The iteration for a positive number comes to its
end, and what it gives, for zero as well, is the integer square root. So every decimal has a square
root, which is the largest decimal whose exact square is not above it, and larger decimals have no
smaller roots. -/
theorem sqrt_exact :
    (∀ n : ℕ, Numeric.integerRoot n * Numeric.integerRoot n ≤ n ∧
        n < (Numeric.integerRoot n + 1) * (Numeric.integerRoot n + 1)) ∧
      (∀ n : ℕ, 0 < n →
        ∃ k, Numeric.EndsAfter n (Numeric.rootStart n) k (Numeric.integerRoot n)) ∧
      (∀ v : Decimal,
        ∃ r, v.sqrt = .ok r ∧ IsGreatest {w : Decimal | w.toRat ^ 2 ≤ v.toRat} r) ∧
      ∀ v w r s : Decimal, v ≤ w → v.sqrt = .ok r → w.sqrt = .ok s → r ≤ s := by
  refine ⟨fun n ↦ ?_, fun n hn ↦ ?_, fun v ↦ ?_, fun v w r s ↦ sqrt_mono⟩
  · rw [Numeric.integerRoot_eq]
    exact ⟨Nat.sqrt_le n, Nat.lt_succ_sqrt n⟩
  · rw [Numeric.integerRoot, if_neg hn.ne']
    exact Numeric.exists_endsAfter hn (Numeric.lt_succ_rootStart_sq n)
  · obtain ⟨r, hr⟩ := exists_sqrt v
    exact ⟨r, hr, isGreatest_sqrt hr⟩

/-- The iteration for the largest radicand of a decimal, and the roots of two and three, neither of
which is a square. -/
theorem sqrt_exact_irrational :
    (∃ k, Numeric.EndsAfter (maxRaw * scale) (Numeric.rootStart (maxRaw * scale)) k
        (Numeric.integerRoot (maxRaw * scale))) ∧
      ∃ r s, two.sqrt = .ok r ∧ three.sqrt = .ok s ∧ r.raw = 1_414_213_562_373_095_048 ∧ r ≤ s := by
  obtain ⟨-, hends, -, hmono⟩ := sqrt_exact
  obtain ⟨r, hr⟩ := exists_sqrt two
  obtain ⟨s, hs⟩ := exists_sqrt three
  have hvalue : r.raw = 1_414_213_562_373_095_048 := by
    rw [sqrt_eq_ok.mp hr]
    decide +kernel
  exact ⟨hends _ (by decide), r, s, hr, hs, hvalue, hmono two three r s (by decide) hr hs⟩

end Decimal

end ConcentratedPool
