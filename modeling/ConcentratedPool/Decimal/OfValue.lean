import ConcentratedPool.Decimal.Mixed
import ConcentratedPool.Numeric.Binary64
import ConcentratedPool.Record.Value

/-!
# Decimals and other values

A decimal is made from a whole number or a numeral only: floats are refused, because they are not
exact, and flags, because they are not numbers. The other way, a decimal is reported as the float
nearest to it.
-/

set_option autoImplicit false
set_option relaxedAutoImplicit false

namespace ConcentratedPool.Number

/-- The number that a value stands for. -/
def ofValue (kind : DecimalKind) : Value → Except Fault Number
  | .integer n => ofInt kind n
  | .text text => ofText kind text
  | .flag _ => .error (.nonDecimal .flag)
  | .null => .error (.nonDecimal .null)
  | .float _ => .error (.nonDecimal .float)
  | .list _ => .error (.nonDecimal .list)
  | .record _ => .error (.nonDecimal .record)

/-- The number whose raw value is given; a flag counts as one or zero. -/
def ofRawValue (kind : DecimalKind) : Value → Except Fault Number
  | .integer n => ofRaw kind n
  | .flag b => ofRaw kind b.toNat
  | _ => .error .nonIntegerRaw

/-- The float nearest to a number. The magnitudes stay far below the largest float, so there always
is one. -/
def toFloat (a : Number) : Float :=
  (Numeric.nearestQuotient a.raw Decimal.scale).getD 0.0

end ConcentratedPool.Number
