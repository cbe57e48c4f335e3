import ConcentratedPool.Fault
import ConcentratedPool.Record.Value

/-!
# Reading records

A `Reading` is the outcome of reading several fields: what they hold, or every one that does not
fit. Readings combine field by field, so that one bad field does not hide another.
-/

set_option autoImplicit false
set_option relaxedAutoImplicit false

namespace ConcentratedPool.Record

/-- The fields of a record by name. -/
abbrev Fields : Type := List (String × Value)

/-- What fields hold, or all that do not fit, in the order of reading. -/
structure Reading (α : Type) where
  outcome : Except (List FieldFault) α

namespace Reading

variable {α β : Type}

/-- Applies what the first reading holds to what the second one holds. -/
def apply (f : Reading (α → β)) (a : Reading α) : Reading β :=
  ⟨match f.outcome, a.outcome with
    | .ok f, .ok a => .ok (f a)
    | .error e, .ok _ => .error e
    | .ok _, .error e => .error e
    | .error e, .error e' => .error (e ++ e')⟩

instance : Applicative Reading where
  pure a := ⟨.ok a⟩
  seq f a := f.apply (a ())

/-- The outcome as a result or one fault. -/
def toExcept (r : Reading α) : Except Fault α :=
  r.outcome.mapError .fields

/-- Refuses a record as a whole, once all its fields fit. -/
def check (r : Reading α) (objection : α → Option String) : Reading α :=
  ⟨match r.outcome with
    | .error e => .error e
    | .ok a =>
      match objection a with
      | none => .ok a
      | some reason => .error [⟨none, .rejected reason⟩]⟩

end Reading

variable {α : Type}

/-- Reads a field that the record must have. -/
def required (fields : Fields) (name : String) (read : Value → Except FieldCause α) : Reading α :=
  ⟨match Value.field? fields name with
    | none => .error [⟨some name, .missing⟩]
    | some value => (read value).mapError fun cause ↦ [⟨some name, cause⟩]⟩

/-- Reads a field that may be absent. -/
def optional (fields : Fields) (name : String) (default : α)
    (read : Value → Except FieldCause α) : Reading α :=
  ⟨match Value.field? fields name with
    | none => .ok default
    | some value => (read value).mapError fun cause ↦ [⟨some name, cause⟩]⟩

/-- Reads a value that may be null. -/
def nullable (read : Value → Except FieldCause α) : Value → Except FieldCause (Option α)
  | .null => .ok none
  | value => some <$> read value

end ConcentratedPool.Record
