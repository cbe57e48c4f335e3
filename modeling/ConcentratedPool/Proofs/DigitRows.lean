import ConcentratedPool.Decimal.Parse
import ConcentratedPool.Decimal.Render
import Mathlib.Data.List.DropRight
import Mathlib.Tactic.Ring

/-!
# Rows of digits

A row of the digits 0 to 9 denotes the number `Nat.ofDigitChars 10`, which is what a text is read
with (`Text.natOfDigits?_of_digits`), and each of the two ways to write a number is undone by it:
without superfluous zeros (`Text.toDigits_ofDigitChars`), and in a given width
(`Text.digitsOfWidth_ofDigitChars`). A row is what is left of it without the zeros at its end,
followed by those zeros (`dropTrailingZeros_append`).
-/

set_option autoImplicit false
set_option relaxedAutoImplicit false

namespace ConcentratedPool

namespace Text

variable {c : Char} {cs : List Char}

/-! ### Reading a row -/

theorem toNat_of_isDigit (h : c.isDigit = true) : 48 ≤ c.toNat ∧ c.toNat ≤ 57 := by
  simpa [Char.isDigit, UInt32.le_iff_toNat_le] using h

theorem sub_lt_ten_of_isDigit (h : c.isDigit = true) : c.toNat - '0'.toNat < 10 := by
  have hrange := toNat_of_isDigit h
  change c.toNat - 48 < 10
  omega

/-- The digits 0 to 9 denote their distance from 0. -/
theorem digitValue?_of_isDigit (h : c.isDigit = true) :
    digitValue? c = some (c.toNat - '0'.toNat) := by
  obtain ⟨hge, hle⟩ := toNat_of_isDigit h
  have hscript : (digitZeros.find? fun z ↦ z ≤ c.toNat && c.toNat < z + 10) = some 0x30 := by
    refine List.find?_cons_of_pos ?_
    simp only [Bool.and_eq_true, decide_eq_true_eq]
    omega
  exact congrArg (Option.map fun z ↦ c.toNat - z) hscript

/-- The digits 0 to 9 are digits of a script. -/
theorem isDigit_of_isDigit (h : c.isDigit = true) : isDigit c = true := by
  simp [isDigit, digitValue?_of_isDigit h]

/-- A digit is written for its value. -/
theorem digitChar_of_isDigit (h : c.isDigit = true) :
    Nat.digitChar (c.toNat - '0'.toNat) = c := by
  obtain ⟨hge, hle⟩ := toNat_of_isDigit h
  apply Char.toNat_inj.mp
  rw [Nat.toNat_digitChar_of_lt_ten (sub_lt_ten_of_isDigit h)]
  change 48 + (c.toNat - 48) = c.toNat
  omega

/-- A row of digits is read as the number that it denotes. -/
theorem natOfDigits?_of_digits (h : ∀ c ∈ cs, c.isDigit = true) :
    natOfDigits? cs = some (Nat.ofDigitChars 10 cs 0) := by
  have hvalues : cs.mapM digitValue? = some (cs.map fun c ↦ c.toNat - '0'.toNat) := by
    induction cs with
    | nil => rfl
    | cons c cs ih =>
      have hcs := ih fun d hd ↦ h d (List.mem_cons_of_mem c hd)
      rw [List.mapM_cons, digitValue?_of_isDigit (h c List.mem_cons_self), hcs]
      rfl
  rw [natOfDigits?, hvalues, Option.map_some, ofDigits, List.foldl_map, Nat.ofDigitChars_eq_foldl]

/-! ### Writing a number -/

/-- One more digit at the end of a row. -/
theorem ofDigitChars_concat (cs : List Char) (c : Char) :
    Nat.ofDigitChars 10 (cs ++ [c]) 0 =
      10 * Nat.ofDigitChars 10 cs 0 + (c.toNat - '0'.toNat) := by
  rw [Nat.ofDigitChars_append, Nat.ofDigitChars_cons, Nat.ofDigitChars_nil]

theorem length_digitsOfWidth (width n : ℕ) : (digitsOfWidth width n).length = width := by
  induction width generalizing n with
  | zero => rfl
  | succ width ih => rw [digitsOfWidth, List.length_append, ih, List.length_singleton]

theorem isDigit_of_mem_digitsOfWidth {width n : ℕ} (h : c ∈ digitsOfWidth width n) :
    c.isDigit = true := by
  induction width generalizing n with
  | zero => simp [digitsOfWidth] at h
  | succ width ih =>
    rw [digitsOfWidth, List.mem_append, List.mem_singleton] at h
    rcases h with hfront | rfl
    · exact ih hfront
    · simp [Nat.isDigit_digitChar, Nat.mod_lt]

/-- A row of a given width denotes the number that was written, as far as it fits. -/
theorem ofDigitChars_digitsOfWidth (width n : ℕ) :
    Nat.ofDigitChars 10 (digitsOfWidth width n) 0 = n % 10 ^ width := by
  induction width generalizing n with
  | zero => simp [digitsOfWidth, Nat.mod_one]
  | succ width ih =>
    have hlast : (n % 10).digitChar.toNat - '0'.toNat = n % 10 :=
      Nat.toNat_digitChar_sub_48_of_lt_ten (Nat.mod_lt _ (by decide))
    rw [digitsOfWidth, ofDigitChars_concat, ih, hlast, pow_succ', Nat.mod_mul]
    ring

/-- A row of digits is written back in its own width. -/
theorem digitsOfWidth_ofDigitChars (h : ∀ c ∈ cs, c.isDigit = true) :
    digitsOfWidth cs.length (Nat.ofDigitChars 10 cs 0) = cs := by
  induction cs using List.reverseRecOn with
  | nil => rfl
  | append_singleton cs c ih =>
    have hfront := ih fun d hd ↦ h d (List.mem_append_left _ hd)
    have hc : c.isDigit = true := h c (by simp)
    have hvalue := sub_lt_ten_of_isDigit hc
    rw [List.length_append, List.length_singleton, digitsOfWidth, ofDigitChars_concat,
      Nat.mul_add_div (by decide), Nat.div_eq_of_lt hvalue, Nat.mul_add_mod,
      Nat.mod_eq_of_lt hvalue, Nat.add_zero, hfront, digitChar_of_isDigit hc]

/-- A row of digits denotes less than the power of ten of its length. -/
theorem ofDigitChars_lt (h : ∀ c ∈ cs, c.isDigit = true) :
    Nat.ofDigitChars 10 cs 0 < 10 ^ cs.length := by
  have hfits := ofDigitChars_digitsOfWidth cs.length (Nat.ofDigitChars 10 cs 0)
  rw [digitsOfWidth_ofDigitChars h] at hfits
  exact hfits ▸ Nat.mod_lt _ (Nat.pow_pos (by decide))

/-- A row of digits that does not start with a zero is written back, and does not denote zero. -/
theorem toDigits_ofDigitChars (h : ∀ c ∈ cs, c.isDigit = true) (hne : cs ≠ [])
    (hhead : cs.head? ≠ some '0') :
    0 < Nat.ofDigitChars 10 cs 0 ∧ Nat.toDigits 10 (Nat.ofDigitChars 10 cs 0) = cs := by
  induction cs using List.reverseRecOn with
  | nil => exact absurd rfl hne
  | append_singleton cs c ih =>
    have hc : c.isDigit = true := h c (by simp)
    have hvalue := sub_lt_ten_of_isDigit hc
    rw [ofDigitChars_concat]
    rcases cs with _ | ⟨d, ds⟩
    · -- A single digit, which is not zero.
      have hzero : c.toNat - '0'.toNat ≠ 0 := by
        intro hzero
        rw [← digitChar_of_isDigit hc, hzero] at hhead
        exact hhead rfl
      rw [Nat.ofDigitChars_nil, Nat.mul_zero, Nat.zero_add, Nat.toDigits_of_lt_base hvalue,
        digitChar_of_isDigit hc]
      exact ⟨Nat.pos_of_ne_zero hzero, rfl⟩
    · obtain ⟨hpos, hfront⟩ := ih (fun e he ↦ h e (List.mem_append_left _ he))
        (List.cons_ne_nil _ _) hhead
      rw [← Nat.toDigits_append_toDigits (by decide) hpos hvalue, hfront,
        Nat.toDigits_of_lt_base hvalue, digitChar_of_isDigit hc]
      exact ⟨by omega, rfl⟩

/-- A number is written with a zero in front only if it is zero. -/
theorem eq_zero_of_head?_toDigits {k : ℕ} (h : (Nat.toDigits 10 k).head? = some '0') : k = 0 := by
  induction k using Nat.strong_induction_on with
  | _ k ih =>
    rcases Nat.lt_or_ge k 10 with hsmall | hlarge
    · rw [Nat.toDigits_of_lt_base hsmall] at h
      exact Nat.digitChar_eq_zero.mp (Option.some.inj h)
    · rw [Nat.toDigits_of_base_le (by decide) hlarge,
        List.head?_append_of_ne_nil _ Nat.toDigits_ne_nil] at h
      have hfront := ih (k / 10) (by omega) h
      omega

end Text

/-! ### Zeros at the end -/

section TrailingZeros

variable {cs : List Char}

/-- A row is what is left of it without the zeros at its end, filled up with zeros. -/
theorem dropTrailingZeros_append (cs : List Char) :
    dropTrailingZeros cs ++
      List.replicate (cs.length - (dropTrailingZeros cs).length) '0' = cs := by
  have hsplit : dropTrailingZeros cs ++ cs.rtakeWhile (· = '0') = cs :=
    List.rdropWhile_append_rtakeWhile
  have hzeros : cs.rtakeWhile (· = '0') = List.replicate (cs.rtakeWhile (· = '0')).length '0' :=
    List.eq_replicate_of_mem fun c hc ↦ by simpa using List.mem_rtakeWhile_imp hc
  have hcount : (cs.rtakeWhile (· = '0')).length = cs.length - (dropTrailingZeros cs).length := by
    have hlength := congrArg List.length hsplit
    rw [List.length_append] at hlength
    omega
  rw [← hcount, ← hzeros, hsplit]

/-- A row that does not end in a zero is what is left of it filled up with zeros. -/
theorem dropTrailingZeros_append_zeros (h : cs.getLast? ≠ some '0') (k : ℕ) :
    dropTrailingZeros (cs ++ List.replicate k '0') = cs := by
  induction k with
  | zero =>
    rw [List.replicate_zero, List.append_nil]
    refine List.rdropWhile_eq_self_iff.mpr fun hne hzero ↦ h ?_
    rw [List.getLast?_eq_some_getLast hne, of_decide_eq_true hzero]
  | succ k ih =>
    rw [List.replicate_succ', ← List.append_assoc]
    exact (List.rdropWhile_concat_pos _ _ _ (by decide)).trans ih

/-- What is left does not end in a zero. -/
theorem getLast?_dropTrailingZeros (cs : List Char) :
    (dropTrailingZeros cs).getLast? ≠ some '0' := by
  intro hzero
  have hne : dropTrailingZeros cs ≠ [] := by
    intro hnil
    rw [hnil] at hzero
    cases hzero
  rw [List.getLast?_eq_some_getLast hne, Option.some.injEq] at hzero
  exact List.rdropWhile_last_not (fun c ↦ decide (c = '0')) cs hne (decide_eq_true hzero)

theorem mem_of_mem_dropTrailingZeros {c : Char} (h : c ∈ dropTrailingZeros cs) : c ∈ cs :=
  (List.rdropWhile_prefix _ _).subset h

theorem length_dropTrailingZeros_le (cs : List Char) :
    (dropTrailingZeros cs).length ≤ cs.length :=
  (List.rdropWhile_prefix _ _).length_le

end TrailingZeros

end ConcentratedPool
