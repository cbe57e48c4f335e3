import ConcentratedPool.Decimal.Basic
import ConcentratedPool.Text.Digit

/-!
# The text of a decimal

`render` writes a decimal in its canonical spelling: a minus sign on values below zero only, the
whole part without superfluous zeros, and the places without trailing zeros, with no point where no
place is left.
-/

set_option autoImplicit false
set_option relaxedAutoImplicit false

namespace ConcentratedPool

/-- A row of digits without the zeros at its end. -/
def dropTrailingZeros (cs : List Char) : List Char :=
  (cs.reverse.dropWhile (· = '0')).reverse

/-- The canonical spelling of a magnitude of `raw` units. -/
def renderMagnitude (raw : Nat) : List Char :=
  let whole := Nat.toDigits 10 (raw / Decimal.scale)
  let places := dropTrailingZeros (Text.digitsOfWidth Decimal.places (raw % Decimal.scale))
  if places.isEmpty then whole else whole ++ '.' :: places

/-- The canonical spelling of `raw` units. -/
def renderRaw (raw : Int) : String :=
  String.ofList ((if raw < 0 then ['-'] else []) ++ renderMagnitude raw.natAbs)

/-- The canonical spelling of an unsigned decimal. -/
def Decimal.render (a : Decimal) : String := renderRaw a.raw

/-- The canonical spelling of a signed decimal. -/
def SignedDecimal.render (a : SignedDecimal) : String := renderRaw a.raw

end ConcentratedPool
