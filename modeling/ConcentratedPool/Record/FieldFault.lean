/-!
# Faults in the fields of a record

A record that comes from outside is read field by field, and every field that does not fit is
reported, in the order in which the fields are declared.
-/

set_option autoImplicit false
set_option relaxedAutoImplicit false

namespace ConcentratedPool

/-- Why a field does not fit. -/
inductive FieldCause where
  /-- A field that the record must have is absent. -/
  | missing
  /-- A decimal field, or the record as a whole, breaks a rule that has a text of its own. -/
  | rejected (reason : String)
  /-- A required decimal field is null. -/
  | notDecimal
  /-- The value is no whole number, nor a flag or text that stands for one. -/
  | notInteger
  /-- A text that is not the numeral of a whole number. -/
  | unreadableInteger
  /-- A numeral, or a float, outside the range that a whole number is read from. -/
  | integerTooLarge
  /-- A float with a fractional part where a whole number is due. -/
  | fractionalInteger
  /-- An infinity or a not-a-number where a finite number is due. -/
  | notFinite
  /-- The value is no number, nor a flag or text that stands for one. -/
  | notFloat
  /-- A text that is not the numeral of a number. -/
  | unreadableFloat
  /-- The value is no text. -/
  | notText
  /-- A text that is shorter than allowed. -/
  | textTooShort
  /-- The number is below its least value. -/
  | belowMinimum
  /-- The number is above its greatest value. -/
  | aboveMaximum
  /-- The number is not above its excluded lower bound. -/
  | notAboveBound
deriving DecidableEq, Repr

/-- A field that does not fit, or the whole record where no field is named. -/
structure FieldFault where
  field : Option String
  cause : FieldCause
deriving DecidableEq, Repr

end ConcentratedPool
