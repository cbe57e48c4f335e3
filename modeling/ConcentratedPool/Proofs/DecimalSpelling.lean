import ConcentratedPool.Proofs.NumeralGrammar

/-!
# The spelling of a decimal

Many texts are read as the same decimal; one of them is the canonical spelling, which
`Numeral.Canonical` describes without reference to how a decimal is written. A canonical text is in
the grammar (`Numeral.Canonical.inGrammar`), so what it is read as is the value of its parts
(`rawOfText_spell_eq_ok`).

A text that is written is the spelling of the parts of its raw value (`renderRaw_eq_spell`). These
are canonical (`Numeral.canonical_ofRaw`), they have that raw value (`Numeral.value_ofRaw`), and no
other canonical parts have it (`Numeral.Canonical.ofRaw_value`). So reading and writing are inverse
to each other between the values and the canonical texts (`ofText_render_canonical`).
-/

set_option autoImplicit false
set_option relaxedAutoImplicit false

namespace ConcentratedPool

namespace Numeral

variable {n : Numeral}

/-! ### Canonical numerals -/

/-- The text of a numeral: a minus sign if it is negative, what stands before the point, and the
point with what stands behind it, if anything does. -/
def spell (n : Numeral) : List Char :=
  (if n.negative then ['-'] else []) ++
    (n.whole ++ if n.fraction.isEmpty then [] else '.' :: n.fraction)

/-- The canonical numerals, written with the digits 0 to 9: a whole part that starts with a zero
only if it is one, at most 18 places that do not end in a zero, and no minus sign on zero. -/
structure Canonical (n : Numeral) : Prop where
  whole : ∀ c ∈ n.whole, c.isDigit = true
  fraction : ∀ c ∈ n.fraction, c.isDigit = true
  whole_ne_nil : n.whole ≠ []
  lead : n.whole.head? = some '0' → n.whole = ['0']
  length_le : n.fraction.length ≤ Decimal.places
  last : n.fraction.getLast? ≠ some '0'
  nonzero : n.negative = true → n.whole ≠ ['0'] ∨ n.fraction ≠ []

namespace Canonical

theorem plain (h : n.Canonical) : n.Plain := ⟨h.whole, h.fraction, h.length_le⟩

/-- A canonical text is in the grammar. -/
theorem inGrammar (h : n.Canonical) : n.InGrammar (String.ofList n.spell) := by
  refine ⟨⟨fun c hc ↦ ?_, List.append_ne_nil_of_left_ne_nil h.whole_ne_nil _, [],
    if n.negative then ['-'] else [], if n.fraction.isEmpty then [] else ['.'], [], ?_, ?_, ?_, ?_⟩,
    h.length_le⟩
  · rcases List.mem_append.mp hc with hwhole | hplace
    · exact h.whole c hwhole
    · exact h.fraction c hplace
  · rintro c ⟨⟩
  · unfold IsSign
    split_ifs
    · rfl
    · exact .inl rfl
  · unfold IsPoint
    split_ifs with hempty
    · exact .inr ⟨rfl, List.isEmpty_iff.mp hempty⟩
    · exact .inl rfl
  · rw [String.toList_ofList, spell]
    cases hplaces : n.fraction <;> simp

end Canonical

end Numeral

/-- A canonical text is read as what it denotes, unless its whole part is too long. -/
theorem rawOfText_spell_eq_ok {n : Numeral} (h : n.Canonical) {raw : ℤ} :
    rawOfText (String.ofList n.spell) = .ok raw ↔
      n.whole.length ≤ Numeral.maxDigits ∧ n.value = raw := by
  rw [rawOfText_of_inGrammar h.inGrammar]
  split_ifs with hlong
  · simp only [false_iff]
    omega
  · simp only [Except.ok.injEq, not_lt.mp hlong, true_and]

namespace Numeral

variable {n : Numeral}

/-! ### The numeral of a raw value -/

/-- The parts that are written for `raw` units. -/
def ofRaw (raw : ℤ) : Numeral where
  negative := raw < 0
  whole := Nat.toDigits 10 (raw.natAbs / Decimal.scale)
  fraction := dropTrailingZeros (Text.digitsOfWidth Decimal.places (raw.natAbs % Decimal.scale))

theorem whole_ofRaw (raw : ℤ) :
    (ofRaw raw).whole = Nat.toDigits 10 (raw.natAbs / Decimal.scale) := rfl

theorem fraction_ofRaw (raw : ℤ) :
    (ofRaw raw).fraction =
      dropTrailingZeros (Text.digitsOfWidth Decimal.places (raw.natAbs % Decimal.scale)) := by
  rw [ofRaw]

theorem filledFraction_ofRaw (raw : ℤ) :
    (ofRaw raw).filledFraction =
      Text.digitsOfWidth Decimal.places (raw.natAbs % Decimal.scale) := by
  have hfill := dropTrailingZeros_append
    (Text.digitsOfWidth Decimal.places (raw.natAbs % Decimal.scale))
  rw [Text.length_digitsOfWidth] at hfill
  rw [filledFraction, fraction_ofRaw, hfill]

/-- A number of raw units below one is written in full in 18 places. -/
theorem ofDigitChars_places {k : ℕ} (hk : k < Decimal.scale) :
    Nat.ofDigitChars 10 (Text.digitsOfWidth Decimal.places k) 0 = k := by
  rw [Text.ofDigitChars_digitsOfWidth, ← Decimal.scale_eq_pow, Nat.mod_eq_of_lt hk]

theorem units_ofRaw (raw : ℤ) : (ofRaw raw).units = raw.natAbs := by
  rw [units, filledFraction_ofRaw, ofDigitChars_places (Nat.mod_lt _ Decimal.scale_pos), ofRaw,
    Nat.ofDigitChars_ten_toDigits, Nat.div_add_mod']

/-- The parts that are written denote the raw value. -/
theorem value_ofRaw (raw : ℤ) : (ofRaw raw).value = raw := by
  rw [value, units_ofRaw]
  simp only [ofRaw, decide_eq_true_eq]
  split_ifs with hsign <;> omega

/-- Nothing is written behind the point for a whole number only. -/
theorem eq_zero_of_dropTrailingZeros {k : ℕ} (hk : k < Decimal.scale)
    (h : dropTrailingZeros (Text.digitsOfWidth Decimal.places k) = []) : k = 0 := by
  have hzeros := dropTrailingZeros_append (Text.digitsOfWidth Decimal.places k)
  rw [h, List.nil_append] at hzeros
  rw [← ofDigitChars_places hk, ← hzeros, Nat.ofDigitChars_replicate_zero, Nat.mul_zero]

/-- The parts that are written are canonical. -/
theorem canonical_ofRaw (raw : ℤ) : (ofRaw raw).Canonical := by
  have hplaces : raw.natAbs % Decimal.scale < Decimal.scale := Nat.mod_lt _ Decimal.scale_pos
  constructor
  · rw [whole_ofRaw]
    exact fun c hc ↦ Nat.isDigit_of_mem_toDigits (by decide) (by decide) hc
  · rw [fraction_ofRaw]
    exact fun c hc ↦ Text.isDigit_of_mem_digitsOfWidth (mem_of_mem_dropTrailingZeros hc)
  · rw [whole_ofRaw]
    exact Nat.toDigits_ne_nil
  · rw [whole_ofRaw]
    intro hlead
    rw [Text.eq_zero_of_head?_toDigits hlead, Nat.toDigits_zero]
  · rw [fraction_ofRaw]
    exact (length_dropTrailingZeros_le _).trans_eq (Text.length_digitsOfWidth _ _)
  · rw [fraction_ofRaw]
    exact getLast?_dropTrailingZeros _
  · intro hsign
    by_contra! hzero
    rw [whole_ofRaw, fraction_ofRaw] at hzero
    have hwhole : raw.natAbs / Decimal.scale = 0 :=
      Text.eq_zero_of_head?_toDigits (congrArg List.head? hzero.1)
    have hfraction : raw.natAbs % Decimal.scale = 0 :=
      eq_zero_of_dropTrailingZeros hplaces hzero.2
    have hnone : raw.natAbs = 0 := by
      rw [← Nat.div_add_mod raw.natAbs Decimal.scale, hwhole, hfraction, Nat.mul_zero]
    have hnegative : raw < 0 := of_decide_eq_true hsign
    omega

namespace Canonical

/-- The whole part is written back. -/
theorem toDigits_whole (h : n.Canonical) :
    Nat.toDigits 10 (Nat.ofDigitChars 10 n.whole 0) = n.whole := by
  by_cases hhead : n.whole.head? = some '0'
  · rw [h.lead hhead]
    rfl
  · exact (Text.toDigits_ofDigitChars h.whole h.whole_ne_nil hhead).2

/-- The places are written back. -/
theorem dropTrailingZeros_places (h : n.Canonical) :
    dropTrailingZeros (Text.digitsOfWidth Decimal.places
      (Nat.ofDigitChars 10 n.filledFraction 0)) = n.fraction := by
  have hplaces := Text.digitsOfWidth_ofDigitChars fun _ hc ↦ h.plain.isDigit_filledFraction hc
  rw [h.plain.length_filledFraction] at hplaces
  rw [hplaces, filledFraction, dropTrailingZeros_append_zeros h.last]

theorem units_div_scale (h : n.Canonical) :
    n.units / Decimal.scale = Nat.ofDigitChars 10 n.whole 0 := by
  rw [units, Nat.mul_comm, Nat.mul_add_div Decimal.scale_pos, Nat.div_eq_of_lt h.plain.filledFraction_lt,
    Nat.add_zero]

theorem units_mod_scale (h : n.Canonical) :
    n.units % Decimal.scale = Nat.ofDigitChars 10 n.filledFraction 0 := by
  rw [units, Nat.mul_comm, Nat.mul_add_mod, Nat.mod_eq_of_lt h.plain.filledFraction_lt]

/-- A numeral with a minus sign denotes something. -/
theorem units_pos (h : n.Canonical) (hsign : n.negative = true) : 0 < n.units := by
  rw [Nat.pos_iff_ne_zero]
  intro hzero
  have hwhole := h.toDigits_whole
  have hfraction := h.dropTrailingZeros_places
  rw [← h.units_div_scale, hzero, Nat.zero_div] at hwhole
  rw [← h.units_mod_scale, hzero, Nat.zero_mod] at hfraction
  rcases h.nonzero hsign with hne | hne
  · exact hne hwhole.symm
  · exact hne hfraction.symm

/-- No other canonical numeral has the same value: it is the one that is written. -/
theorem ofRaw_value (h : n.Canonical) : ofRaw n.value = n := by
  have hunits : n.value.natAbs = n.units := by
    unfold value
    split_ifs <;> omega
  have hsign : decide (n.value < 0) = n.negative := by
    cases hnegative : n.negative with
    | true =>
      have hpos := h.units_pos hnegative
      simp only [value, hnegative, if_true, decide_eq_true_eq]
      omega
    | false =>
      simp only [value, hnegative, Bool.false_eq_true, if_false, decide_eq_false_iff_not]
      omega
  rw [ofRaw, hunits, h.units_div_scale, h.units_mod_scale, h.toDigits_whole,
    h.dropTrailingZeros_places, hsign]

end Canonical

end Numeral

/-! ### Reading and writing -/

/-- A text is the canonical spelling of `raw` units. -/
def Spells (text : String) (raw : ℤ) : Prop :=
  ∃ n : Numeral, n.Canonical ∧ text = String.ofList n.spell ∧ n.value = raw

/-- What is written for a raw value is the text of its parts. -/
theorem renderRaw_eq_spell (raw : ℤ) :
    renderRaw raw = String.ofList (Numeral.ofRaw raw).spell := by
  have hpoint : ∀ whole places : List Char,
      (if places.isEmpty then whole else whole ++ '.' :: places) =
        whole ++ if places.isEmpty then [] else '.' :: places := by
    intro whole places
    split_ifs <;> simp
  rw [renderRaw, renderMagnitude, Numeral.spell, Numeral.whole_ofRaw, Numeral.fraction_ofRaw]
  simp only [hpoint, Numeral.ofRaw, decide_eq_true_eq]

/-- Every raw value has one canonical spelling, the text that is written for it. -/
theorem spells_iff {text : String} {raw : ℤ} : Spells text raw ↔ text = renderRaw raw := by
  constructor
  · rintro ⟨n, hn, rfl, rfl⟩
    rw [renderRaw_eq_spell, hn.ofRaw_value]
  · rintro rfl
    exact ⟨_, Numeral.canonical_ofRaw raw, renderRaw_eq_spell raw, Numeral.value_ofRaw raw⟩

/-- What is written for a raw value of 256 bits is read as that value: its whole part is far from
too long. -/
theorem rawOfText_renderRaw {raw : ℤ} (h : raw.natAbs ≤ Decimal.maxRaw) :
    rawOfText (renderRaw raw) = .ok raw := by
  have hsmall : raw.natAbs / Decimal.scale < 10 ^ 60 :=
    (Nat.div_le_div_right h).trans_lt (by decide)
  have hlength : (Numeral.ofRaw raw).whole.length ≤ 60 := by
    rw [Numeral.whole_ofRaw]
    exact (Nat.length_toDigits_le_iff (by decide) (by decide)).mpr hsmall
  rw [renderRaw_eq_spell, rawOfText_spell_eq_ok (Numeral.canonical_ofRaw raw)]
  exact ⟨hlength.trans (by decide), Numeral.value_ofRaw raw⟩

theorem Decimal.ofText_render (v : Decimal) : Decimal.ofText v.render = .ok v := by
  have hrange : (v.raw : ℤ).natAbs ≤ Decimal.maxRaw := v.toSigned.natAbs_raw_le
  rw [Decimal.ofText, Decimal.render, rawOfText_renderRaw hrange, ok_bind, Decimal.ofRaw_eq_ok]

theorem SignedDecimal.ofText_render (v : SignedDecimal) :
    SignedDecimal.ofText v.render = .ok v := by
  rw [SignedDecimal.ofText, SignedDecimal.render, rawOfText_renderRaw v.natAbs_raw_le, ok_bind,
    SignedDecimal.ofRaw_eq_ok]

/-- Values whose texts are all read as themselves have different texts. -/
theorem injective_of_read_write {V : Type} {write : V → String} {read : String → Except Fault V}
    (h : ∀ v, read (write v) = .ok v) : Function.Injective write := by
  intro v w htext
  have hread := h v
  rw [htext, h w, Except.ok.injEq] at hread
  exact hread.symm

/-- Reading and writing decimals of both kinds. Every value is read back from its text, and no two
values have one text. However a value was spelled when it was read, its text is the one canonical
spelling of it: a minus sign on a value below zero only, a whole part without superfluous zeros, and
no point or one to 18 places of which the last is no zero. -/
theorem ofText_render_canonical :
    (∀ v : Decimal, Decimal.ofText v.render = .ok v) ∧
      (∀ v : SignedDecimal, SignedDecimal.ofText v.render = .ok v) ∧
      Function.Injective Decimal.render ∧ Function.Injective SignedDecimal.render ∧
      (∀ (text : String) (v : Decimal), Decimal.ofText text = .ok v →
        ∀ spelling, Spells spelling v.raw ↔ spelling = v.render) ∧
      (∀ (text : String) (v : SignedDecimal), SignedDecimal.ofText text = .ok v →
        ∀ spelling, Spells spelling v.raw ↔ spelling = v.render) :=
  ⟨Decimal.ofText_render, SignedDecimal.ofText_render,
    injective_of_read_write Decimal.ofText_render,
    injective_of_read_write SignedDecimal.ofText_render,
    fun _ _ _ _ ↦ spells_iff, fun _ _ _ _ ↦ spells_iff⟩

/-- Two spellings that are not canonical, with blanks, a sign, superfluous zeros and digits of
another script, and the canonical ones. -/
theorem ofText_render_canonical_spellings :
    (∃ v, Decimal.ofText " +0012.500 " = .ok v ∧ Spells "12.5" v.raw) ∧
      ∃ v, SignedDecimal.ofText "-３." = .ok v ∧ Spells "-3" v.raw := by
  obtain ⟨v, hv, hrender⟩ := exists_of_any (Decimal.ofText " +0012.500 ")
    (fun v ↦ v.render = "12.5") (by decide +kernel)
  obtain ⟨w, hw, hrender'⟩ := exists_of_any (SignedDecimal.ofText "-３.")
    (fun w ↦ w.render = "-3") (by decide +kernel)
  obtain ⟨-, -, -, -, hunsigned, hsigned⟩ := ofText_render_canonical
  exact ⟨⟨v, hv, (hunsigned _ v hv _).mpr (of_decide_eq_true hrender).symm⟩,
    ⟨w, hw, (hsigned _ w hw _).mpr (of_decide_eq_true hrender').symm⟩⟩

end ConcentratedPool
