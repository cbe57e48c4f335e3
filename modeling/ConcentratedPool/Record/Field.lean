import ConcentratedPool.Decimal.OfValue
import ConcentratedPool.Record.Numeral
import ConcentratedPool.Record.Reading

/-!
# Reading fields

Readers for the values of single fields: decimals, whole numbers and floats in a range, and texts.
Whole numbers and floats are also read from flags and from numerals.
-/

set_option autoImplicit false
set_option relaxedAutoImplicit false

namespace ConcentratedPool.Record

/-- Reads a decimal. Floats are refused, to keep every parameter exact. -/
def decimal : Value → Except FieldCause Decimal
  | .null => .error .notDecimal
  | .float _ => .error (.rejected "Use a decimal string instead of a float")
  | .flag _ => .error (.rejected (Fault.nonDecimal .flag).message)
  | .list _ => .error (.rejected (Fault.nonDecimal .list).message)
  | .record _ => .error (.rejected (Fault.nonDecimal .record).message)
  | .integer n => (Decimal.ofInt n).mapError fun fault ↦ .rejected fault.message
  | .text text => (Decimal.ofText text).mapError fun fault ↦ .rejected fault.message

/-- A float as a whole number, if it is one of 64 bits. -/
def intOfFloat (x : Float) : Except FieldCause Int :=
  match Numeric.truncate? x with
  | none => .error .notFinite
  | some n =>
    if x.floor != x then .error .fractionalInteger
    else if n.natAbs < Nat.pow 2 63 then .ok n
    else .error .integerTooLarge

/-- Reads a whole number of any size. -/
def anyInt : Value → Except FieldCause Int
  | .integer n => .ok n
  | .flag b => .ok b.toNat
  | .float x => intOfFloat x
  | .text text =>
    match readInt text with
    | .value n => .ok n
    | .tooLong => .error .integerTooLarge
    | .malformed => .error .unreadableInteger
  | _ => .error .notInteger

/-- Reads a float. -/
def anyFloat : Value → Except FieldCause Float
  | .float x => .ok x
  | .integer n =>
    match Numeric.nearestInt n with
    | some x => .ok x
    | none => .error .notFloat
  | .flag b => .ok (if b then 1.0 else 0.0)
  | .text text =>
    match readFloat? text with
    | some x => .ok x
    | none => .error .unreadableFloat
  | _ => .error .notFloat

/-- Reads a text. -/
def anyText : Value → Except FieldCause String
  | .text text => .ok text
  | _ => .error .notText

/-- Reads a text that is not empty. -/
def nonEmptyText (value : Value) : Except FieldCause String := do
  let text ← anyText value
  if text.isEmpty then throw .textTooShort
  return text

/-- Reads a whole number of at least `least`. -/
def intAtLeast (least : Int) (value : Value) : Except FieldCause Int := do
  let n ← anyInt value
  if n < least then throw .belowMinimum
  return n

/-- Reads a whole number between two bounds. -/
def intBetween (least greatest : Int) (value : Value) : Except FieldCause Int := do
  let n ← anyInt value
  if greatest < n then throw .aboveMaximum
  if n < least then throw .belowMinimum
  return n

/-- Reads a whole number above a bound. -/
def intAbove (bound : Int) (value : Value) : Except FieldCause Int := do
  let n ← anyInt value
  if n ≤ bound then throw .notAboveBound
  return n

/-- Reads a float between two bounds. -/
def floatBetween (least greatest : Float) (value : Value) : Except FieldCause Float := do
  let x ← anyFloat value
  if greatest < x then throw .aboveMaximum
  if x < least then throw .belowMinimum
  return x

/-- Reads a float above a bound. -/
def floatAbove (bound : Float) (value : Value) : Except FieldCause Float := do
  let x ← anyFloat value
  if x ≤ bound then throw .notAboveBound
  return x

end ConcentratedPool.Record
