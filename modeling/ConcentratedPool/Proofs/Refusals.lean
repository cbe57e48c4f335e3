import ConcentratedPool.AmpGamma
import ConcentratedPool.Proofs.CheckedArithmetic

/-!
# Which refusals are possible

`RefusedOnly allowed x` says that whatever refuses the computation `x` is an allowed fault. The
predicate is closed under the chains of checked computations, and each operation has one statement
here: what it needs of `allowed`, and of its operands where a fault depends on them. Quotients
refuse a zero divisor, differences of unsigned decimals refuse to fall below zero, and everything
else refuses values beyond 256 bits only.
-/

set_option autoImplicit false
set_option relaxedAutoImplicit false

namespace ConcentratedPool

/-- A computation that is refused in allowed ways only. -/
def RefusedOnly {α : Type} (allowed : Fault → Prop) (x : Except Fault α) : Prop :=
  ∀ fault, x = .error fault → allowed fault

namespace RefusedOnly

variable {allowed : Fault → Prop}

/-! ### Chains -/

section Chain

variable {α β : Type} {x y : Except Fault α}

@[simp] theorem ok (a : α) : RefusedOnly allowed (.ok a) := by
  rintro _ ⟨⟩

@[simp] theorem pure (a : α) : RefusedOnly allowed (Pure.pure a : Except Fault α) := ok a

@[simp] theorem error_iff {fault : Fault} :
    RefusedOnly allowed (.error fault : Except Fault α) ↔ allowed fault := by
  constructor
  · exact fun h ↦ h fault rfl
  · rintro h _ ⟨⟩
    exact h

@[simp] theorem throw_iff {fault : Fault} :
    RefusedOnly allowed (throw fault : Except Fault α) ↔ allowed fault := error_iff

/-- A chain is refused in allowed ways exactly when its first part is, and the rest from there. -/
@[simp] theorem bind_iff {f : α → Except Fault β} :
    RefusedOnly allowed (x >>= f) ↔
      RefusedOnly allowed x ∧ ∀ a, x = .ok a → RefusedOnly allowed (f a) := by
  simp only [RefusedOnly, bind_eq_error]
  constructor
  · exact fun h ↦ ⟨fun fault hx ↦ h fault (.inl hx), fun a ha fault hf ↦ h fault (.inr ⟨a, ha, hf⟩)⟩
  · rintro ⟨hx, hf⟩ fault (hfault | ⟨a, ha, hfault⟩)
    · exact hx fault hfault
    · exact hf a ha fault hfault

@[simp] theorem map_iff {f : α → β} : RefusedOnly allowed (f <$> x) ↔ RefusedOnly allowed x := by
  rw [map_eq_pure_bind, bind_iff]
  simp only [pure, implies_true, and_true]

@[simp] theorem ite_iff {c : Prop} [Decidable c] :
    RefusedOnly allowed (if c then x else y) ↔
      (c → RefusedOnly allowed x) ∧ (¬ c → RefusedOnly allowed y) := by
  by_cases hc : c
  · simp [hc]
  · simp [hc]

/-- A check is refused with its own fault only, and the rest follows where it does not fail. -/
theorem refuse_iff {c : Prop} [Decidable c] {fault : Fault} {rest : α → Except Fault β}
    {y : Except Fault β} :
    RefusedOnly allowed (if c then (throw fault >>= rest) else y) ↔
      (c → allowed fault) ∧ (¬ c → RefusedOnly allowed y) := by
  simp only [ite_iff, bind_iff, throw_iff, throw_ne_ok, false_implies, implies_true, and_true]

/-- A computation that is refused with arithmetic faults only gives a value or such a fault. -/
theorem ok_or_arithmetic (h : RefusedOnly (fun fault ↦ ∃ cause, fault = .arithmetic cause) x) :
    (∃ a, x = .ok a) ∨ ∃ cause, x = .error (.arithmetic cause) := by
  cases hx : x with
  | ok a => exact .inl ⟨a, rfl⟩
  | error fault =>
    obtain ⟨cause, rfl⟩ := h fault hx
    exact .inr ⟨cause, rfl⟩

end Chain

/-! ### Unsigned decimals -/

section Decimal

variable {a b : Decimal}

theorem ofNatRaw (hover : allowed (.arithmetic .overflow)) (n : ℕ) :
    RefusedOnly allowed (Decimal.ofNatRaw n) := by
  unfold Decimal.ofNatRaw
  split_ifs
  · exact ok _
  · exact error_iff.mpr hover

@[simp] theorem add (hover : allowed (.arithmetic .overflow)) :
    RefusedOnly allowed (a + b : Except Fault Decimal) := ofNatRaw hover _

@[simp] theorem mul (hover : allowed (.arithmetic .overflow)) :
    RefusedOnly allowed (a * b : Except Fault Decimal) := ofNatRaw hover _

@[simp] theorem div (hover : allowed (.arithmetic .overflow))
    (hzero : b.raw = 0 → allowed (.arithmetic .divisionByZero)) :
    RefusedOnly allowed (a / b : Except Fault Decimal) := by
  change RefusedOnly allowed (Decimal.div a b)
  unfold Decimal.div
  split_ifs with hb
  · exact error_iff.mpr (hzero hb)
  · exact ofNatRaw hover _

@[simp] theorem sqrt (hover : allowed (.arithmetic .overflow)) : RefusedOnly allowed a.sqrt :=
  ofNatRaw hover _

theorem ofRaw (hover : allowed (.arithmetic .overflow)) {n : ℤ}
    (hunder : n < 0 → allowed (.arithmetic .underflow)) :
    RefusedOnly allowed (Decimal.ofRaw n) := by
  unfold Decimal.ofRaw
  split_ifs with hn
  · exact error_iff.mpr (hunder hn)
  · exact ofNatRaw hover _

/-- A difference underflows only where more is taken off than is there. -/
theorem sub (hover : allowed (.arithmetic .overflow))
    (hunder : a < b → allowed (.arithmetic .underflow)) :
    RefusedOnly allowed (a - b : Except Fault Decimal) := by
  refine ofRaw hover fun hneg ↦ hunder ?_
  rw [Decimal.lt_def]
  omega

end Decimal

/-! ### Signed decimals -/

section Signed

variable {a b : SignedDecimal}

theorem ofSignedRaw (hover : allowed (.arithmetic .signedOverflow)) (n : ℤ) :
    RefusedOnly allowed (SignedDecimal.ofRaw n) := by
  unfold SignedDecimal.ofRaw
  split_ifs
  · exact ok _
  · exact error_iff.mpr hover

@[simp] theorem signedAdd (hover : allowed (.arithmetic .signedOverflow)) :
    RefusedOnly allowed (a + b : Except Fault SignedDecimal) := ofSignedRaw hover _

@[simp] theorem signedSub (hover : allowed (.arithmetic .signedOverflow)) :
    RefusedOnly allowed (a - b : Except Fault SignedDecimal) := ofSignedRaw hover _

@[simp] theorem signedMul (hover : allowed (.arithmetic .signedOverflow)) :
    RefusedOnly allowed (a * b : Except Fault SignedDecimal) := ofSignedRaw hover _

@[simp] theorem signedDiv (hover : allowed (.arithmetic .signedOverflow))
    (hzero : b.raw = 0 → allowed (.arithmetic .divisionByZero)) :
    RefusedOnly allowed (a / b : Except Fault SignedDecimal) := by
  change RefusedOnly allowed (SignedDecimal.div a b)
  unfold SignedDecimal.div
  split_ifs with hb
  · exact error_iff.mpr (hzero hb)
  · exact ofSignedRaw hover _

@[simp] theorem isClose (hover : allowed (.arithmetic .signedOverflow)) :
    RefusedOnly allowed (SignedDecimal.isClose a b) := by
  simp [SignedDecimal.isClose, SignedDecimal.distance, ofSignedRaw hover]

/-- Only a negative value has no unsigned one. -/
theorem toUnsigned (hover : allowed (.arithmetic .overflow))
    (hneg : a.raw < 0 → allowed (.arithmetic .negativeMagnitude)) :
    RefusedOnly allowed a.toUnsigned := by
  unfold SignedDecimal.toUnsigned
  split_ifs with ha
  · exact error_iff.mpr (hneg ha)
  · exact ofRaw hover fun hlt ↦ absurd hlt ha

end Signed

end RefusedOnly

end ConcentratedPool
