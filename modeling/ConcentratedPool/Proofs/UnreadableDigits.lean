import ConcentratedPool.CommandLine.Session
import ConcentratedPool.Proofs.NumeralGrammar
import ConcentratedPool.Proofs.OperandArithmetic

/-!
# Digits that cannot be read

Whether a text is written like a numeral is asked of its digits in the wider sense, but only those
with a decimal value are read. Superscript, subscript and circled digits pass the first test and
fail the second (`Numeral.Unreadable`), and this failure is no refusal of the pool.

Every other text, unless it is too long, is read or refused with an arithmetic fault
(`rawOfText_of_unreadable`, `refusedOnly_rawOfText`). A session that is given such a text as the
maker's share ends with the exit status of a refusal; one that is given unreadable digits does not
(`CommandLine.run_of_create`). Both together are `ofText_faults`.
-/

set_option autoImplicit false
set_option relaxedAutoImplicit false

namespace ConcentratedPool

/-! ### Rows of digits -/

namespace Text

/-- A row denotes no number exactly if one of its digits has no decimal value. -/
theorem natOfDigits?_eq_none {cs : List Char} :
    natOfDigits? cs = none ↔ ∃ c ∈ cs, digitValue? c = none := by
  rw [natOfDigits?, Option.map_eq_none_iff]
  induction cs with
  | nil => simp
  | cons c cs ih =>
    simp only [List.mapM_cons, List.mem_cons, exists_eq_or_imp, ← ih]
    cases digitValue? c with
    | none => simp
    | some v => cases cs.mapM digitValue? <;> simp

end Text

namespace Numeral

variable {n : Numeral} {cs : List Char} {text : String}

/-- A row that is not too long is read if it denotes a number. -/
theorem natOfRow_of_length_le (hlength : cs.length ≤ maxDigits) :
    natOfRow cs = match Text.natOfDigits? cs with
      | some k => .ok k
      | none => .error (.unreadableDigits (String.ofList cs)) := by
  have hreadable : ¬ maxDigits < (cs.takeWhile fun c ↦ (Text.digitValue? c).isSome).length := by
    have hle := (List.takeWhile_prefix (l := cs) fun c ↦ (Text.digitValue? c).isSome).length_le
    omega
  exact if_neg hreadable

theorem natOfRow_of_unreadable (hlength : cs.length ≤ maxDigits)
    (h : ∃ c ∈ cs, Text.digitValue? c = none) :
    natOfRow cs = .error (.unreadableDigits (String.ofList cs)) := by
  rw [natOfRow_of_length_le hlength, Text.natOfDigits?_eq_none.mpr h]

theorem exists_natOfRow (hlength : cs.length ≤ maxDigits)
    (h : ∀ c ∈ cs, Text.digitValue? c ≠ none) : ∃ k, natOfRow cs = .ok k := by
  have hsome : Text.natOfDigits? cs ≠ none := by
    rw [Ne, Text.natOfDigits?_eq_none]
    rintro ⟨c, hc, hnone⟩
    exact h c hc hnone
  obtain ⟨k, hk⟩ := Option.ne_none_iff_exists'.mp hsome
  exact ⟨k, by rw [natOfRow_of_length_le hlength, hk]⟩

/-- The zeros that fill the places up have a decimal value. -/
theorem exists_filledFraction :
    (∃ c ∈ n.filledFraction, Text.digitValue? c = none) ↔
      ∃ c ∈ n.fraction, Text.digitValue? c = none := by
  simp only [filledFraction, List.mem_append]
  constructor
  · rintro ⟨c, hplace | hzero, hnone⟩
    · exact ⟨c, hplace, hnone⟩
    · rw [List.eq_of_mem_replicate hzero] at hnone
      cases hnone
  · rintro ⟨c, hc, hnone⟩
    exact ⟨c, .inl hc, hnone⟩

/-! ### Numerals -/

/-- A text that is written like a numeral with at most 18 places, in which a digit has no decimal
value. -/
def Unreadable (text : String) : Prop :=
  ∃ n : Numeral, n.PartsOf Text.isBlank Text.isDigit text ∧
    n.fraction.length ≤ Decimal.places ∧ ∃ c ∈ n.whole ++ n.fraction, Text.digitValue? c = none

/-- A text in which no more digits stand in front of the point than are read as one number. -/
def Short (text : String) : Prop :=
  ∀ n : Numeral, n.PartsOf Text.isBlank Text.isDigit text → n.whole.length ≤ maxDigits

theorem length_filledFraction_le (hplaces : n.fraction.length ≤ Decimal.places) :
    n.filledFraction.length ≤ maxDigits := by
  rw [length_filledFraction_of_le hplaces]
  decide

/-- The whole part is read first, and then the places. -/
theorem magnitude_of_unreadable (hwhole : n.whole.length ≤ maxDigits)
    (hplaces : n.fraction.length ≤ Decimal.places)
    (h : ∃ c ∈ n.whole ++ n.fraction, Text.digitValue? c = none) :
    ∃ row, n.magnitude = .error (.unreadableDigits row) := by
  by_cases hrow : ∃ c ∈ n.whole, Text.digitValue? c = none
  · rw [magnitude, natOfRow_of_unreadable hwhole hrow]
    exact ⟨_, rfl⟩
  · obtain ⟨k, hk⟩ := exists_natOfRow hwhole fun c hc hnone ↦ hrow ⟨c, hc, hnone⟩
    have hfraction : ∃ c ∈ n.fraction, Text.digitValue? c = none := by
      obtain ⟨c, hc, hnone⟩ := h
      rcases List.mem_append.mp hc with hc | hc
      · exact absurd ⟨c, hc, hnone⟩ hrow
      · exact ⟨c, hc, hnone⟩
    rw [magnitude, hk, ok_bind, natOfRow_of_unreadable (length_filledFraction_le hplaces)
      (exists_filledFraction.mpr hfraction)]
    exact ⟨_, rfl⟩

theorem exists_magnitude (hwhole : n.whole.length ≤ maxDigits)
    (hplaces : n.fraction.length ≤ Decimal.places)
    (h : ¬ ∃ c ∈ n.whole ++ n.fraction, Text.digitValue? c = none) :
    ∃ k, n.magnitude = .ok k := by
  obtain ⟨k, hk⟩ := exists_natOfRow hwhole fun c hc hnone ↦
    h ⟨c, List.mem_append_left _ hc, hnone⟩
  obtain ⟨m, hm⟩ := exists_natOfRow (length_filledFraction_le hplaces) fun c hc hnone ↦ by
    obtain ⟨d, hd, hnone⟩ := exists_filledFraction.mp ⟨c, hc, hnone⟩
    exact h ⟨d, List.mem_append_right _ hd, hnone⟩
  exact ⟨k * Decimal.scale + m, by rw [magnitude, hk, ok_bind, hm]; rfl⟩

end Numeral

open Numeral

variable {text : String}

/-! ### Texts -/

theorem rawOfText_of_unreadable (hshort : Short text) (h : Unreadable text) :
    ∃ row, rawOfText text = .error (.unreadableDigits row) := by
  obtain ⟨n, hparts, hplaces, hdigit⟩ := h
  obtain ⟨row, hrow⟩ := magnitude_of_unreadable (hshort n hparts) hplaces hdigit
  refine ⟨row, ?_⟩
  rw [rawOfText, hparts.ofText?]
  simp only [if_neg hplaces.not_gt, hrow]
  rfl

theorem refusedOnly_rawOfText (hshort : Short text) (h : ¬ Unreadable text) :
    RefusedOnly (fun fault ↦ ∃ cause, fault = .arithmetic cause) (rawOfText text) := by
  unfold rawOfText
  cases hparts : Numeral.ofText? text with
  | none => exact RefusedOnly.error_iff.mpr ⟨_, rfl⟩
  | some n =>
    rw [ofText?_eq_some_iff] at hparts
    by_cases hplaces : Decimal.places < n.fraction.length
    · simp only [if_pos hplaces]
      exact RefusedOnly.error_iff.mpr ⟨_, rfl⟩
    · obtain ⟨k, hk⟩ := exists_magnitude (hshort n hparts) (not_lt.mp hplaces)
        fun hdigit ↦ h ⟨n, hparts, not_lt.mp hplaces, hdigit⟩
      simp only [if_neg hplaces, hk]
      exact RefusedOnly.ok _

theorem Number.ofText_eq (kind : DecimalKind) (text : String) :
    Number.ofText kind text = rawOfText text >>= Number.ofRaw kind := by
  cases kind with
  | unsigned =>
    change Number.unsigned <$> (rawOfText text >>= Decimal.ofRaw) = _
    cases rawOfText text <;> rfl
  | signed =>
    change Number.signed <$> (rawOfText text >>= SignedDecimal.ofRaw) = _
    cases rawOfText text <;> rfl

theorem Number.ofText_of_unreadable (kind : DecimalKind) (hshort : Short text)
    (h : Unreadable text) : ∃ row, Number.ofText kind text = .error (.unreadableDigits row) := by
  obtain ⟨row, hrow⟩ := rawOfText_of_unreadable hshort h
  exact ⟨row, by rw [Number.ofText_eq, hrow]; rfl⟩

theorem Number.refusedOnly_ofText (kind : DecimalKind) (hshort : Short text)
    (h : ¬ Unreadable text) :
    RefusedOnly (fun fault ↦ ∃ cause, fault = .arithmetic cause) (Number.ofText kind text) := by
  rw [Number.ofText_eq, RefusedOnly.bind_iff]
  exact ⟨refusedOnly_rawOfText hshort h, fun raw _ ↦ Number.refusedOnly_ofRaw kind raw⟩

/-! ### Sessions -/

/-- A value that is read as a text is one. -/
theorem eq_text_of_anyText {v : Value} {given : String} (h : Record.anyText v = .ok given) :
    v = .text given := by
  cases v with
  | text _ => cases h; rfl
  | _ => cases h

/-- Of a set-up that a simulation can be made from with another maker's share, nothing is refused
but the share. -/
theorem Simulation.create_of_share {setup : Simulation.Setup} {source : NormalSource}
    {share : Value} {s : Simulation} {fault : Fault}
    (hother : Simulation.create { setup with makerShare := share } source = .ok s)
    (hread : Simulation.readShare setup.makerShare = .error fault) :
    Simulation.create setup source = .error fault := by
  simp only [Simulation.create, bind_eq_ok] at hother
  obtain ⟨params, hparams, pool, hpool, -⟩ := hother
  change setup.poolParams = .ok params at hparams
  rw [Simulation.create, hparams, ok_bind]
  simp only [hpool, ok_bind, hread]
  rfl

namespace CommandLine

variable {arguments : List String} {source : NormalSource} {request : Request}
  {setup : Simulation.Setup} {fault : Fault}

/-- A session whose simulation cannot be made ends as refused if this is a refusal, and with the
fault itself if not. -/
theorem run_of_create (hrequest : Request.ofArguments arguments = .ok request)
    (hsetup : Simulation.Setup.ofFields request.fields = .ok setup)
    (hcreate : Simulation.create setup source = .error fault)
    (hfault : ∀ faults, fault ≠ .fields faults) :
    run arguments source = if fault.isRejection then .ok (.refused fault) else .error fault := by
  have hsimulate : simulate request source = .error fault := by
    rw [simulate, hsetup, ok_bind, hcreate]
    rfl
  unfold run
  simp only [hrequest, hsimulate]

end CommandLine

open CommandLine

/-- Reading a text, unless more digits stand in front of the point than are read as one number.
A text with a digit that has no decimal value, and otherwise written like a numeral, is refused
with a fault of its own; every other text is read as a decimal of either kind or refused with an
arithmetic fault.

A session that is given the text as the maker's share, and nothing else that is refused, ends as
refused because of the arithmetic fault, with status 1; unreadable digits are a fault of the
session. -/
theorem ofText_faults (hshort : Short text) :
    (∀ kind, (Unreadable text → ∃ row, Number.ofText kind text = .error (.unreadableDigits row)) ∧
      (¬ Unreadable text → (∃ v, Number.ofText kind text = .ok v) ∨
        ∃ cause, Number.ofText kind text = .error (.arithmetic cause))) ∧
    ∀ arguments source request setup share s, Request.ofArguments arguments = .ok request →
      Simulation.Setup.ofFields request.fields = .ok setup → setup.makerShare = .text text →
      Simulation.create { setup with makerShare := share } source = .ok s →
        (Unreadable text → ∃ row, Decimal.ofText text = .error (.unreadableDigits row) ∧
          run arguments source = .error (.unreadableDigits row)) ∧
        (¬ Unreadable text → (∃ v, Decimal.ofText text = .ok v) ∨
          ∃ cause, Decimal.ofText text = .error (.arithmetic cause) ∧
            run arguments source = .ok (.refused (.arithmetic cause)) ∧
            (Ending.refused (.arithmetic cause)).status = 1) := by
  refine ⟨fun kind ↦ ⟨Number.ofText_of_unreadable kind hshort,
    fun h ↦ (Number.refusedOnly_ofText kind hshort h).ok_or_arithmetic⟩, ?_⟩
  intro arguments source request setup share s hrequest hsetup hshare hother
  have hrun (fault : Fault) (hread : Decimal.ofText text = .error fault)
      (hfault : ∀ faults, fault ≠ .fields faults) := by
    refine run_of_create hrequest hsetup (Simulation.create_of_share hother ?_) hfault
    rw [hshare]
    exact hread
  constructor
  · intro h
    obtain ⟨row, hrow⟩ := rawOfText_of_unreadable hshort h
    have hread : Decimal.ofText text = .error (.unreadableDigits row) := by
      rw [Decimal.ofText, hrow]
      rfl
    exact ⟨row, hread, hrun _ hread (by rintro faults ⟨⟩)⟩
  · intro h
    have honly := RefusedOnly.map_iff.mp (Number.refusedOnly_ofText .unsigned hshort h)
    refine honly.ok_or_arithmetic.imp_right ?_
    rintro ⟨cause, hread⟩
    exact ⟨cause, hread, hrun _ hread (by rintro faults ⟨⟩), rfl⟩

/-- A share below zero is refused, and the session that is given it ends with status 1. -/
theorem ofText_faults_negative :
    Short "-1" ∧ ¬ Unreadable "-1" ∧ ∃ cause, Decimal.ofText "-1" = .error (.arithmetic cause) ∧
      run ["--volatility", "0", "--drift", "0", "--steps", "1", "--maker-fee-share", "-1"] 0 =
        .ok (.refused (.arithmetic cause)) ∧
      (Ending.refused (.arithmetic cause)).status = 1 := by
  have hparts (n : Numeral) (h : n.PartsOf Text.isBlank Text.isDigit "-1") :
      n = ⟨true, ['1'], []⟩ := Option.some.inj (h.ofText?.symm.trans (by decide))
  have hshort : Short "-1" := by
    intro n hn
    rw [hparts n hn]
    decide
  have hreadable : ¬ Unreadable "-1" := by
    rintro ⟨n, hn, -, hdigit⟩
    rw [hparts n hn] at hdigit
    obtain ⟨c, hc, hnone⟩ := hdigit
    rw [List.mem_singleton.mp hc] at hnone
    exact absurd hnone (by decide)
  -- Equality of values is not decidable, so the share is compared as the text that it is read as.
  obtain ⟨request, hrequest, hrest⟩ := exists_of_any (Request.ofArguments
    ["--volatility", "0", "--drift", "0", "--steps", "1", "--maker-fee-share", "-1"])
    (fun request ↦ (do
      let setup ← Simulation.Setup.ofFields request.fields
      let _ ← Simulation.create { setup with makerShare := .text "0" } 0
      return setup.makerShare : Except Fault Value).toOption.any fun share ↦
        (Record.anyText share).toOption.any (· == "-1"))
    (by decide +kernel)
  obtain ⟨share, hmade, hshare⟩ := exists_of_any _ _ hrest
  simp only [bind_eq_ok, pure_eq_ok] at hmade
  obtain ⟨setup, hsetup, s, hother, rfl⟩ := hmade
  obtain ⟨given, hgiven, hequal⟩ := exists_of_any _ _ hshare
  have htext : setup.makerShare = .text "-1" := by
    rw [eq_text_of_anyText hgiven, eq_of_beq hequal]
  refine ⟨hshort, hreadable, ?_⟩
  obtain ⟨-, hrefused⟩ := (ofText_faults hshort).2 _ _ _ _ _ _ hrequest hsetup htext hother
  refine (hrefused hreadable).resolve_left ?_
  rintro ⟨v, hv⟩
  have hnone : (Decimal.ofText "-1").toBool = false := by decide +kernel
  rw [hv] at hnone
  cases hnone

/-- The superscript two is no decimal of either kind, and refused with a fault that is none of the
pool; as the maker's share it is a fault of the session. -/
theorem ofText_superscript :
    Number.ofText .unsigned "²" = .error (.unreadableDigits "²") ∧
      Number.ofText .signed "²" = .error (.unreadableDigits "²") ∧
      (Fault.unreadableDigits "²").isRejection = false ∧
      run ["--volatility", "0", "--drift", "0", "--steps", "1", "--maker-fee-share", "²"] 0 =
        .error (.unreadableDigits "²") := by
  decide +kernel

end ConcentratedPool
