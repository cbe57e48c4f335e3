import ConcentratedPool.Proofs.DigitRows
import ConcentratedPool.Proofs.Refusals
import ConcentratedPool.Proofs.SignedRounding

/-!
# The grammar of decimal numerals

What a text must look like to be read, described without the reader: `Numeral.PartsOf` puts a text
together from blanks, an optional sign, digits with at most one point, and blanks, for any class of
blanks and of digits. Cutting a text up finds exactly these parts (`Numeral.ofText?_eq_some_iff`),
because the characters of one part cannot stand in another.

In a text of the first 128 characters the blanks and digits are the usual ones
(`Text.isBlank_ascii`, `Text.isDigit_ascii`), and `Numeral.InGrammar` is the grammar with at most 18
places. A numeral in it denotes the exact number `Numeral.exactValue`, which 18 places can hold
(`Numeral.value_eq`). Reading accepts the numerals in the grammar whose value is in range, gives
them that value and refuses everything else (`ofText_follows_grammar`).
-/

set_option autoImplicit false
set_option relaxedAutoImplicit false

namespace ConcentratedPool

theorem Decimal.scale_eq_pow : Decimal.scale = 10 ^ Decimal.places := rfl

/-! ### The parts of a text -/

namespace Numeral

/-- A way to write the sign; a plus sign may be left out. -/
def IsSign (negative : Bool) (sign : List Char) : Prop :=
  if negative then sign = ['-'] else sign = [] ∨ sign = ['+']

/-- A way to write the point; it may be left out if nothing stands behind it. -/
def IsPoint (fraction point : List Char) : Prop := point = ['.'] ∨ point = [] ∧ fraction = []

/-- A numeral holds the parts of a text: between blanks, a sign, digits with at most one point, and
at least one digit in all. -/
structure PartsOf (blank digit : Char → Bool) (n : Numeral) (text : String) : Prop where
  digits : ∀ c ∈ n.whole ++ n.fraction, digit c = true
  ne_nil : n.whole ++ n.fraction ≠ []
  text_eq : ∃ left sign point right : List Char, (∀ c ∈ left ++ right, blank c = true) ∧
    IsSign n.negative sign ∧ IsPoint n.fraction point ∧
    text.toList = left ++ (sign ++ (n.whole ++ point ++ n.fraction)) ++ right

/-- Larger classes of blanks and digits, among the characters of the text, keep its parts. -/
theorem PartsOf.mono {blank digit blank' digit' : Char → Bool} {n : Numeral} {text : String}
    (hblank : ∀ c ∈ text.toList, blank c = true → blank' c = true)
    (hdigit : ∀ c ∈ text.toList, digit c = true → digit' c = true)
    (h : n.PartsOf blank digit text) : n.PartsOf blank' digit' text := by
  obtain ⟨left, sign, point, right, hblanks, hsign, hpoint, htext⟩ := h.text_eq
  refine ⟨fun c hc ↦ hdigit c ?_ (h.digits c hc), h.ne_nil, left, sign, point, right,
    fun c hc ↦ hblank c ?_ (hblanks c hc), hsign, hpoint, htext⟩
  all_goals
    simp only [htext, List.mem_append] at hc ⊢
    tauto

end Numeral

/-! ### Cutting a text up -/

namespace Text

variable {c : Char} {cs rest : List Char}

theorem dropWhile_of_no_blank (h : ∀ c ∈ cs, isBlank c = false) : cs.dropWhile isBlank = cs := by
  cases cs with
  | nil => rfl
  | cons c cs =>
    exact List.dropWhile_cons_of_neg (by rw [h c List.mem_cons_self]; exact Bool.false_ne_true)

/-- Blanks around a text without blanks come off. -/
theorem trim_append {left core right : List Char} (hblanks : ∀ c ∈ left ++ right, isBlank c = true)
    (hcore : ∀ c ∈ core, isBlank c = false) : trim (left ++ core ++ right) = core := by
  have hleft : ∀ c ∈ left, isBlank c = true := fun c hc ↦ hblanks c (List.mem_append_left _ hc)
  have hright : ∀ c ∈ right.reverse, isBlank c = true := fun c hc ↦
    hblanks c (List.mem_append_right _ (List.mem_reverse.mp hc))
  have hreverse : ∀ c ∈ core.reverse, isBlank c = false := fun c hc ↦
    hcore c (List.mem_reverse.mp hc)
  rw [trim, List.append_assoc, List.dropWhile_append_of_pos hleft]
  rcases core with _ | ⟨d, ds⟩
  · rw [List.nil_append, List.dropWhile_eq_nil_iff.mpr fun c hc ↦
      hright c (List.mem_reverse.mpr hc)]
    rfl
  · rw [List.cons_append, List.dropWhile_cons_of_neg (by simp [hcore d List.mem_cons_self]),
      ← List.cons_append, List.reverse_append, List.dropWhile_append_of_pos hright,
      dropWhile_of_no_blank hreverse, List.reverse_reverse]

/-- What comes off a text are blanks. -/
theorem exists_trim (cs : List Char) : ∃ left right : List Char,
    (∀ c ∈ left ++ right, isBlank c = true) ∧ cs = left ++ trim cs ++ right := by
  set front := cs.dropWhile isBlank with hfront
  have hback : front.reverse =
      front.reverse.takeWhile isBlank ++ front.reverse.dropWhile isBlank :=
    List.takeWhile_append_dropWhile.symm
  refine ⟨cs.takeWhile isBlank, (front.reverse.takeWhile isBlank).reverse, fun c hc ↦ ?_, ?_⟩
  · rcases List.mem_append.mp hc with hleft | hright
    · exact List.mem_takeWhile_imp hleft
    · exact List.mem_takeWhile_imp (List.mem_reverse.mp hright)
  · rw [trim, ← hfront, List.append_assoc, ← List.reverse_append, ← hback, List.reverse_reverse,
      hfront, List.takeWhile_append_dropWhile]

/-- A sign comes off what has no sign itself. -/
theorem splitSign_append {negative : Bool} {sign : List Char} (hsign : Numeral.IsSign negative sign)
    (hrest : ∀ c ∈ rest, c ≠ '-' ∧ c ≠ '+') : splitSign (sign ++ rest) = (negative, rest) := by
  have hplain : splitSign rest = (false, rest) := by
    unfold splitSign
    split
    · exact absurd rfl (hrest _ List.mem_cons_self).1
    · exact absurd rfl (hrest _ List.mem_cons_self).2
    · rfl
  cases negative with
  | true =>
    obtain rfl : sign = ['-'] := hsign
    rfl
  | false =>
    obtain rfl | rfl : sign = [] ∨ sign = ['+'] := hsign
    · exact hplain
    · rfl

/-- What comes off is a sign. -/
theorem exists_splitSign (cs : List Char) :
    ∃ sign, Numeral.IsSign (splitSign cs).1 sign ∧ cs = sign ++ (splitSign cs).2 := by
  unfold splitSign
  split
  · exact ⟨['-'], rfl, rfl⟩
  · exact ⟨['+'], .inr rfl, rfl⟩
  · exact ⟨[], .inl rfl, rfl⟩

end Text

namespace Numeral

/-- A text without a point in front of the point is cut there. -/
theorem splitPoint_append {whole point fraction : List Char} (hwhole : ∀ c ∈ whole, c ≠ '.')
    (hpoint : IsPoint fraction point) :
    splitPoint (whole ++ point ++ fraction) = (whole, fraction) := by
  have hnone : ∀ c ∈ whole, decide (c ≠ '.') = true := fun c hc ↦ decide_eq_true (hwhole c hc)
  rw [splitPoint, List.append_assoc, List.takeWhile_append_of_pos hnone,
    List.dropWhile_append_of_pos hnone]
  rcases hpoint with rfl | ⟨rfl, rfl⟩ <;> simp

/-- What is between the two parts is a point. -/
theorem exists_splitPoint (cs : List Char) :
    ∃ point, IsPoint (splitPoint cs).2 point ∧
      cs = (splitPoint cs).1 ++ point ++ (splitPoint cs).2 := by
  have hcut : cs = cs.takeWhile (· ≠ '.') ++ cs.dropWhile (· ≠ '.') :=
    List.takeWhile_append_dropWhile.symm
  simp only [splitPoint]
  cases hrest : cs.dropWhile (· ≠ '.') with
  | nil =>
    rw [hrest] at hcut
    exact ⟨[], .inr ⟨rfl, rfl⟩, by simpa using hcut⟩
  | cons c rest =>
    have hpoint : c = '.' := by
      have hhead := List.head_dropWhile_not (fun c : Char ↦ decide (c ≠ '.'))
        (hrest ▸ List.cons_ne_nil c rest)
      simp only [hrest, List.head_cons] at hhead
      exact not_not.mp (of_decide_eq_false hhead)
    rw [hrest, hpoint] at hcut
    exact ⟨['.'], .inl rfl, by simpa using hcut⟩

end Numeral

/-! ### Blanks and digits -/

namespace Text

variable {c : Char}

/-- A digit in the wider sense stands in a script's row of ten or in a row of figures. -/
theorem exists_of_isDigit (h : isDigit c = true) :
    (∃ z ∈ digitZeros, z ≤ c.toNat ∧ c.toNat < z + 10) ∨
      ∃ r ∈ figureRanges, r.1 ≤ c.toNat ∧ c.toNat ≤ r.2 := by
  simp only [isDigit, digitValue?, Option.isSome_map, List.find?_isSome, Bool.or_eq_true,
    List.any_eq_true, Bool.and_eq_true, decide_eq_true_eq] at h
  exact h

/-- No digit is blank: the rows of digits stand in the gaps between the blanks. -/
theorem isBlank_of_isDigit (h : isDigit c = true) : isBlank c = false := by
  have hscripts : ∀ z ∈ digitZeros, 0x20 < z ∧ z + 10 ≤ 0x85 ∨ 0xA0 < z ∧ z + 10 ≤ 0x1680 ∨
      0x1680 < z ∧ z + 10 ≤ 0x2000 ∨ 0x3000 < z := by decide
  have hfigures : ∀ r ∈ figureRanges, 0xA0 < r.1 ∧ r.2 < 0x1680 ∨ 0x1680 < r.1 ∧ r.2 < 0x2000 ∨
      0x205F < r.1 ∧ r.2 < 0x3000 ∨ 0x3000 < r.1 := by decide
  simp only [isBlank, Bool.or_eq_false_iff, Bool.and_eq_false_iff, decide_eq_false_iff_not,
    beq_eq_false_iff_ne]
  rcases exists_of_isDigit h with ⟨z, hz, hrange⟩ | ⟨r, hr, hrange⟩
  · have hgap := hscripts z hz
    omega
  · have hgap := hfigures r hr
    omega

/-- The blanks among the first 128 characters: the space, tabs, line and page ends, and the four
information separators. -/
def isAsciiBlank (c : Char) : Bool :=
  [0x20, 0x09, 0x0A, 0x0B, 0x0C, 0x0D, 0x1C, 0x1D, 0x1E, 0x1F].contains c.toNat

theorem toNat_lt_of_isAsciiBlank (h : isAsciiBlank c = true) : c.toNat < 128 := by
  have hsmall : ∀ k ∈ [0x20, 0x09, 0x0A, 0x0B, 0x0C, 0x0D, 0x1C, 0x1D, 0x1E, 0x1F], k < 128 := by
    decide
  exact hsmall _ (List.contains_iff_mem.mp h)

theorem isBlank_ascii (h : c.toNat < 128) : isBlank c = isAsciiBlank c := by
  rw [Bool.eq_iff_iff]
  simp only [isBlank, isAsciiBlank, Bool.or_eq_true, Bool.and_eq_true, decide_eq_true_eq,
    beq_iff_eq, List.contains_cons, List.contains_nil, Bool.or_false]
  omega

/-- The digits among the first 128 characters are 0 to 9. -/
theorem isDigit_ascii (h : c.toNat < 128) : isDigit c = c.isDigit := by
  have hscripts : ∀ z ∈ digitZeros, z = 0x30 ∨ 128 ≤ z := by decide
  have hfigures : ∀ r ∈ figureRanges, 128 ≤ r.1 := by decide
  rw [Bool.eq_iff_iff]
  refine ⟨fun hdigit ↦ ?_, isDigit_of_isDigit⟩
  rcases exists_of_isDigit hdigit with ⟨z, hz, hrange⟩ | ⟨r, hr, hrange⟩
  · have hzero := hscripts z hz
    simp only [Char.isDigit, UInt32.le_iff_toNat_le, Bool.and_eq_true, decide_eq_true_eq]
    change 48 ≤ c.toNat ∧ c.toNat ≤ 57
    omega
  · have hlarge := hfigures r hr
    omega

end Text

namespace Numeral

variable {n : Numeral} {text : String} {cs : List Char}

/-- What stands behind the sign are digits and the point. -/
theorem PartsOf.point_or_digit {blank digit : Char → Bool} (h : n.PartsOf blank digit text)
    {point : List Char} (hpoint : IsPoint n.fraction point) {c : Char}
    (hc : c ∈ n.whole ++ point ++ n.fraction) : c = '.' ∨ digit c = true := by
  simp only [List.mem_append] at hc
  rcases hc with (hwhole | hc) | hfraction
  · exact .inr (h.digits c (List.mem_append_left _ hwhole))
  · rcases hpoint with rfl | ⟨rfl, -⟩
    · exact .inl (List.mem_singleton.mp hc)
    · cases hc
  · exact .inr (h.digits c (List.mem_append_right _ hfraction))

/-- The parts of a text are found by cutting it up. -/
theorem PartsOf.ofText? (h : n.PartsOf Text.isBlank Text.isDigit text) :
    Numeral.ofText? text = some n := by
  obtain ⟨left, sign, point, right, hblanks, hsign, hpoint, htext⟩ := h.text_eq
  set body := n.whole ++ point ++ n.fraction with hbody
  have hnosign : ∀ c ∈ body, c ≠ '-' ∧ c ≠ '+' := by
    intro c hc
    rcases h.point_or_digit hpoint hc with rfl | hdigit
    · decide
    · constructor <;> rintro rfl <;> exact absurd hdigit (by decide)
  have hnoblank : ∀ c ∈ sign ++ body, Text.isBlank c = false := by
    intro c hc
    rcases List.mem_append.mp hc with hc | hc
    · unfold IsSign at hsign
      split_ifs at hsign
      · rw [hsign, List.mem_singleton] at hc
        exact hc ▸ by decide
      · rcases hsign with rfl | rfl
        · cases hc
        · exact List.mem_singleton.mp hc ▸ by decide
    · rcases h.point_or_digit hpoint hc with rfl | hdigit
      · decide
      · exact Text.isBlank_of_isDigit hdigit
  have hwhole : ∀ c ∈ n.whole, c ≠ '.' := by
    rintro c hc rfl
    exact absurd (h.digits _ (List.mem_append_left _ hc)) (by decide)
  have hall : (n.whole ++ n.fraction).all Text.isDigit = true := List.all_eq_true.mpr h.digits
  have hsome : (n.whole ++ n.fraction).isEmpty = false := List.isEmpty_eq_false_iff.mpr h.ne_nil
  rw [Numeral.ofText?, htext, Text.trim_append hblanks hnoblank, Text.splitSign_append hsign hnosign]
  simp only [hbody, splitPoint_append hwhole hpoint, hall, hsome]
  rfl

/-- Cutting a text up finds its parts and nothing else. -/
theorem ofText?_eq_some_iff :
    Numeral.ofText? text = some n ↔ n.PartsOf Text.isBlank Text.isDigit text := by
  refine ⟨fun h ↦ ?_, PartsOf.ofText?⟩
  simp only [Numeral.ofText?, Bool.and_eq_true, Bool.not_eq_true', List.isEmpty_eq_false_iff,
    List.all_eq_true] at h
  split_ifs at h with hdigits
  obtain ⟨left, right, hblanks, htrim⟩ := Text.exists_trim text.toList
  obtain ⟨sign, hsign, hunsigned⟩ := Text.exists_splitSign (Text.trim text.toList)
  obtain ⟨point, hpoint, hparts⟩ := exists_splitPoint (Text.splitSign (Text.trim text.toList)).2
  obtain rfl := Option.some.inj h
  refine ⟨hdigits.2, hdigits.1, left, sign, point, right, hblanks, hsign, hpoint, ?_⟩
  rw [← hparts, ← hunsigned, ← htrim]

/-! ### The number that a numeral denotes -/

/-- The number of raw units that a numeral denotes, without its sign. -/
def units (n : Numeral) : ℕ :=
  Nat.ofDigitChars 10 n.whole 0 * Decimal.scale + Nat.ofDigitChars 10 n.filledFraction 0

/-- The number of raw units that a numeral denotes. -/
def value (n : Numeral) : ℤ := if n.negative then -n.units else n.units

/-- The exact number that a numeral denotes. -/
def exactValue (n : Numeral) : ℚ :=
  (if n.negative then -1 else 1) *
    (Nat.ofDigitChars 10 n.whole 0 + Nat.ofDigitChars 10 n.fraction 0 / 10 ^ n.fraction.length)

/-- At most 18 places are filled up to 18. -/
theorem length_filledFraction_of_le (h : n.fraction.length ≤ Decimal.places) :
    n.filledFraction.length = Decimal.places := by
  rw [filledFraction, List.length_append, List.length_replicate, Nat.add_sub_cancel' h]

/-- A numeral in the digits 0 to 9 with at most 18 places. -/
structure Plain (n : Numeral) : Prop where
  whole : ∀ c ∈ n.whole, c.isDigit = true
  fraction : ∀ c ∈ n.fraction, c.isDigit = true
  length_le : n.fraction.length ≤ Decimal.places

namespace Plain

theorem isDigit_filledFraction (h : n.Plain) {c : Char} (hc : c ∈ n.filledFraction) :
    c.isDigit = true := by
  rcases List.mem_append.mp hc with hplace | hzero
  · exact h.fraction c hplace
  · rw [List.eq_of_mem_replicate hzero]
    decide

theorem length_filledFraction (h : n.Plain) : n.filledFraction.length = Decimal.places :=
  length_filledFraction_of_le h.length_le

/-- The places denote less than one. -/
theorem filledFraction_lt (h : n.Plain) :
    Nat.ofDigitChars 10 n.filledFraction 0 < Decimal.scale := by
  have hlt := Text.ofDigitChars_lt fun _ hc ↦ h.isDigit_filledFraction hc
  rwa [h.length_filledFraction] at hlt

/-- No place is lost: the raw units are those of the exact number. -/
theorem cast_value (h : n.Plain) : (n.value : ℚ) = 10 ^ Decimal.places * n.exactValue := by
  have hfilled : (Nat.ofDigitChars 10 n.filledFraction 0 : ℚ) =
      10 ^ Decimal.places * (Nat.ofDigitChars 10 n.fraction 0 / 10 ^ n.fraction.length) := by
    have hpow : (10 : ℚ) ^ Decimal.places =
        10 ^ (Decimal.places - n.fraction.length) * 10 ^ n.fraction.length := by
      rw [← pow_add, Nat.sub_add_cancel h.length_le]
    rw [filledFraction, Nat.ofDigitChars_append, Nat.ofDigitChars_replicate_zero, hpow]
    push_cast
    field_simp
  have hunits : (n.units : ℚ) = 10 ^ Decimal.places *
      (Nat.ofDigitChars 10 n.whole 0 + Nat.ofDigitChars 10 n.fraction 0 / 10 ^ n.fraction.length) := by
    rw [units, Nat.cast_add, Nat.cast_mul, hfilled, Decimal.scale_eq_pow]
    push_cast
    ring
  unfold value exactValue
  split_ifs
  · push_cast
    rw [hunits]
    ring
  · push_cast
    rw [hunits]
    ring

end Plain

/-- A row of digits is read as the number that it denotes, unless it is too long. -/
theorem natOfRow_of_digits (h : ∀ c ∈ cs, c.isDigit = true) :
    natOfRow cs = if maxDigits < cs.length then .error (.excessDigits maxDigits cs.length)
      else .ok (Nat.ofDigitChars 10 cs 0) := by
  have hreadable : cs.takeWhile (fun c ↦ (Text.digitValue? c).isSome) = cs :=
    List.takeWhile_eq_self_iff.mpr fun c hc ↦ by rw [Text.digitValue?_of_isDigit (h c hc)]; rfl
  simp only [natOfRow, hreadable, Text.natOfDigits?_of_digits h]

/-- A plain numeral has the magnitude that it denotes, unless its whole part is too long. -/
theorem Plain.magnitude_eq (h : n.Plain) :
    n.magnitude = if maxDigits < n.whole.length then
        .error (.excessDigits maxDigits n.whole.length)
      else .ok n.units := by
  have hplaces : ¬ maxDigits < Decimal.places := by decide
  rw [magnitude, natOfRow_of_digits h.whole,
    natOfRow_of_digits fun _ hc ↦ h.isDigit_filledFraction hc, h.length_filledFraction,
    if_neg hplaces]
  split_ifs <;> rfl

/-! ### Reading -/

/-- The grammar of decimal numerals in the first 128 characters. -/
def InGrammar (n : Numeral) (text : String) : Prop :=
  n.PartsOf Text.isAsciiBlank Char.isDigit text ∧ n.fraction.length ≤ Decimal.places

theorem InGrammar.plain (h : n.InGrammar text) : n.Plain where
  whole c hc := h.1.digits c (List.mem_append_left _ hc)
  fraction c hc := h.1.digits c (List.mem_append_right _ hc)
  length_le := h.2

/-- A numeral in the grammar is found by cutting the text up. -/
theorem InGrammar.ofText? (h : n.InGrammar text) : Numeral.ofText? text = some n := by
  refine (h.1.mono (fun c _ hblank ↦ ?_) fun c _ hdigit ↦ Text.isDigit_of_isDigit hdigit).ofText?
  exact (Text.isBlank_ascii (Text.toNat_lt_of_isAsciiBlank hblank)).trans hblank

/-- A text is at most one numeral. -/
theorem InGrammar.unique {m : Numeral} (hm : m.InGrammar text) (hn : n.InGrammar text) : m = n :=
  Option.some.inj (hm.ofText?.symm.trans hn.ofText?)

/-- In a text of the first 128 characters nothing but a numeral in the grammar is found, or one with
too many places. -/
theorem inGrammar_of_ofText? (hascii : ∀ c ∈ text.toList, c.toNat < 128)
    (h : Numeral.ofText? text = some n) (hplaces : n.fraction.length ≤ Decimal.places) :
    n.InGrammar text :=
  ⟨(ofText?_eq_some_iff.mp h).mono (fun c hc hblank ↦ Text.isBlank_ascii (hascii c hc) ▸ hblank)
    fun c hc hdigit ↦ Text.isDigit_ascii (hascii c hc) ▸ hdigit, hplaces⟩

end Numeral

open Numeral

variable {text : String} {n : Numeral}

/-- A numeral in the grammar is read as its value, unless its whole part is too long. -/
theorem rawOfText_of_inGrammar (h : n.InGrammar text) :
    rawOfText text = if maxDigits < n.whole.length then
        .error (.excessDigits maxDigits n.whole.length)
      else .ok n.value := by
  rw [rawOfText, h.ofText?]
  simp only [if_neg (not_lt.mpr h.2), h.plain.magnitude_eq, value]
  split_ifs <;> rfl

/-- A text of the first 128 characters that is outside the grammar is refused. -/
theorem rawOfText_of_not_inGrammar (hascii : ∀ c ∈ text.toList, c.toNat < 128)
    (h : ∀ n : Numeral, ¬ n.InGrammar text) :
    ∃ cause, rawOfText text = .error (.arithmetic cause) := by
  unfold rawOfText
  cases hparts : Numeral.ofText? text with
  | none => exact ⟨_, rfl⟩
  | some n =>
    have hplaces : Decimal.places < n.fraction.length := by
      by_contra hle
      exact h n (inGrammar_of_ofText? hascii hparts (not_lt.mp hle))
    exact ⟨_, if_pos hplaces⟩

/-- What reading a text as a kind of decimal comes to, if the raw values of that kind are those
between two bounds. Numerals whose whole part is too long to be read as one number are left
aside. -/
structure FollowsGrammar {V : Type} (raw : V → ℤ) (low high : ℤ) (text : String)
    (outcome : Except Fault V) : Prop where
  /-- Exactly the numerals in the grammar whose value is in range are accepted. -/
  accepts : (∃ v, outcome = .ok v) ↔ ∃ n : Numeral, n.InGrammar text ∧
    n.whole.length ≤ maxDigits ∧ low ≤ 10 ^ 18 * n.exactValue ∧ 10 ^ 18 * n.exactValue ≤ high
  /-- The raw value is the exact one. -/
  exact : ∀ v, outcome = .ok v → ∀ n : Numeral, n.InGrammar text →
    (raw v : ℚ) = 10 ^ 18 * n.exactValue
  /-- Everything else is refused with an arithmetic fault. -/
  refuses : (∀ n : Numeral, n.InGrammar text → n.whole.length ≤ maxDigits) →
    ∀ fault, outcome = .error fault → ∃ cause, fault = .arithmetic cause

/-- Reading follows the grammar for every kind of decimal that is made from a raw value. -/
theorem followsGrammar_of_ofRaw {V : Type} {raw : V → ℤ} {low high : ℤ}
    {ofRaw : ℤ → Except Fault V} (hok : ∀ k v, ofRaw k = .ok v ↔ raw v = k)
    (hrange : ∀ k, (∃ v, raw v = k) ↔ low ≤ k ∧ k ≤ high)
    (hrefuse : ∀ k, RefusedOnly (fun fault ↦ ∃ cause, fault = .arithmetic cause) (ofRaw k))
    (hascii : ∀ c ∈ text.toList, c.toNat < 128) :
    FollowsGrammar raw low high text (rawOfText text >>= ofRaw) := by
  by_cases hsome : ∃ n : Numeral, n.InGrammar text
  · obtain ⟨n, hn⟩ := hsome
    have hunique : ∀ m : Numeral, m.InGrammar text → m = n := fun m hm ↦ hm.unique hn
    have hvalue : (n.value : ℚ) = 10 ^ 18 * n.exactValue := hn.plain.cast_value
    by_cases hlong : maxDigits < n.whole.length
    · -- The numeral is left aside: it is not read, and nothing is said of how.
      rw [rawOfText_of_inGrammar hn, if_pos hlong]
      refine ⟨⟨?_, ?_⟩, ?_, ?_⟩
      · rintro ⟨v, ⟨⟩⟩
      · rintro ⟨m, hm, hlength, -⟩
        rw [hunique m hm] at hlength
        exact absurd hlong (not_lt.mpr hlength)
      · rintro v ⟨⟩
      · exact fun hshort ↦ absurd hlong (not_lt.mpr (hshort n hn))
    · rw [rawOfText_of_inGrammar hn, if_neg hlong, ok_bind]
      refine ⟨⟨?_, ?_⟩, ?_, fun _ ↦ hrefuse n.value⟩
      · rintro ⟨v, hv⟩
        obtain ⟨hlow, hhigh⟩ := (hrange n.value).mp ⟨v, (hok _ _).mp hv⟩
        exact ⟨n, hn, not_lt.mp hlong, hvalue ▸ Int.cast_le.mpr hlow, hvalue ▸ Int.cast_le.mpr hhigh⟩
      · rintro ⟨m, hm, -, hlow, hhigh⟩
        rw [hunique m hm, ← hvalue, Int.cast_le] at hlow hhigh
        obtain ⟨v, hv⟩ := (hrange n.value).mpr ⟨hlow, hhigh⟩
        exact ⟨v, (hok _ _).mpr hv⟩
      · intro v hv m hm
        rw [hunique m hm, ← hvalue, (hok _ _).mp hv]
  · have hnone : ∀ n : Numeral, ¬ n.InGrammar text := fun n hn ↦ hsome ⟨n, hn⟩
    obtain ⟨cause, hread⟩ := rawOfText_of_not_inGrammar hascii hnone
    rw [hread]
    refine ⟨⟨?_, ?_⟩, ?_, ?_⟩
    · rintro ⟨v, ⟨⟩⟩
    · rintro ⟨n, hn, -⟩
      exact absurd hn (hnone n)
    · rintro v ⟨⟩
    · rintro - fault ⟨⟩
      exact ⟨cause, rfl⟩

/-- Reading follows the grammar. For every text of the first 128 characters, an unsigned and a
signed decimal are read exactly if the text is a numeral in the grammar whose value is in the range
of the kind; the raw value is then exactly `10¹⁸` times the number that the numeral denotes, and in
every other case there is an arithmetic fault. Numerals of more than 4300 digits before the point
are left aside. -/
theorem ofText_follows_grammar (hascii : ∀ c ∈ text.toList, c.toNat < 128) :
    FollowsGrammar (fun v : Decimal ↦ (v.raw : ℤ)) 0 Decimal.maxRaw text (Decimal.ofText text) ∧
      FollowsGrammar SignedDecimal.raw (-Decimal.maxRaw) Decimal.maxRaw text
        (SignedDecimal.ofText text) := by
  constructor
  · refine followsGrammar_of_ofRaw (fun _ _ ↦ Decimal.ofRaw_eq_ok) (fun k ↦ ⟨?_, ?_⟩)
      (fun k ↦ RefusedOnly.ofRaw ⟨_, rfl⟩ fun _ ↦ ⟨_, rfl⟩) hascii
    · rintro ⟨v, rfl⟩
      exact ⟨Int.natCast_nonneg _, Int.ofNat_le.mpr v.raw_le⟩
    · rintro ⟨hlow, hhigh⟩
      exact ⟨⟨k.toNat, by omega⟩, Int.toNat_of_nonneg hlow⟩
  · refine followsGrammar_of_ofRaw (fun _ _ ↦ SignedDecimal.ofRaw_eq_ok) (fun k ↦ ⟨?_, ?_⟩)
      (fun k ↦ RefusedOnly.ofSignedRaw ⟨_, rfl⟩ k) hascii
    · rintro ⟨v, rfl⟩
      have hrange := v.natAbs_raw_le
      constructor <;> omega
    · rintro ⟨hlow, hhigh⟩
      exact ⟨⟨k, by omega⟩, rfl⟩

/-- One half with a minus sign, no digit in front of the point, and blanks: a signed decimal, and
out of range for an unsigned one. -/
theorem ofText_follows_grammar_half :
    (∃ v : SignedDecimal, SignedDecimal.ofText " -.5\t" = .ok v ∧
        v.raw = -500_000_000_000_000_000) ∧
      (¬ ∃ v : Decimal, Decimal.ofText " -.5\t" = .ok v) ∧
      ∀ fault, Decimal.ofText " -.5\t" = .error fault → ∃ cause, fault = .arithmetic cause := by
  let half : Numeral := ⟨true, [], ['5']⟩
  have hgrammar : half.InGrammar " -.5\t" :=
    ⟨⟨List.all_eq_true.mp (by decide), by decide, [' '], ['-'], ['.'], ['\t'],
      List.all_eq_true.mp (by decide), rfl, .inl rfl, by decide⟩, by decide⟩
  have hvalue : half.exactValue = -1 / 2 := by decide +kernel
  have hascii : ∀ c ∈ " -.5\t".toList, c.toNat < 128 := by simp
  obtain ⟨hunsigned, hsigned⟩ := ofText_follows_grammar hascii
  have hshort : ∀ n : Numeral, n.InGrammar " -.5\t" → n.whole.length ≤ maxDigits := by
    intro n hn
    rw [hn.unique hgrammar]
    decide
  obtain ⟨v, hv⟩ := hsigned.accepts.mpr ⟨half, hgrammar, by decide, by decide +kernel⟩
  refine ⟨⟨v, hv, ?_⟩, ?_, hunsigned.refuses hshort⟩
  · have hraw := hsigned.exact v hv half hgrammar
    rw [hvalue] at hraw
    have hcast : (v.raw : ℚ) = ((-500_000_000_000_000_000 : ℤ) : ℚ) := by
      rw [hraw]
      norm_num
    exact Int.cast_injective hcast
  · rintro hread
    obtain ⟨n, hn, -, hlow, -⟩ := hunsigned.accepts.mp hread
    rw [hn.unique hgrammar, hvalue] at hlow
    norm_num at hlow

end ConcentratedPool
