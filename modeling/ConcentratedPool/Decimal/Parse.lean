import ConcentratedPool.Decimal.Arithmetic
import ConcentratedPool.Text.Blank
import ConcentratedPool.Text.Digit

/-!
# Reading decimals

A decimal numeral is, between blanks, an optional sign followed by digits of any script with at most
one point, at least one digit in all and at most 18 behind the point. `rawOfText` reads its value in
raw units exactly; `Decimal.ofText` and `SignedDecimal.ofText` check it against their range.
-/

set_option autoImplicit false
set_option relaxedAutoImplicit false

namespace ConcentratedPool

/-- The parts of a numeral: its sign, and what stands before and behind the point. -/
structure Numeral where
  negative : Bool
  whole : List Char
  fraction : List Char
deriving DecidableEq, Repr

namespace Numeral

/-- The longest row of digits that is read as one number. -/
def maxDigits : Nat := 4300

/-- Cuts a text at its first point. -/
def splitPoint (cs : List Char) : List Char × List Char :=
  (cs.takeWhile (· ≠ '.'), (cs.dropWhile (· ≠ '.')).drop 1)

/-- The parts of a text that is written like a numeral; nothing but digits may stand on the two
sides of the point. -/
def ofText? (text : String) : Option Numeral :=
  let (negative, unsigned) := Text.splitSign (Text.trim text.toList)
  let (whole, fraction) := splitPoint unsigned
  let digits := whole ++ fraction
  if !digits.isEmpty && digits.all Text.isDigit then some ⟨negative, whole, fraction⟩ else none

/-- The number that a row of digits of any script denotes. A row with a digit that has no decimal
value is too long already if it is so in front of that digit. -/
def natOfRow (digits : List Char) : Except Fault Nat :=
  let readable := digits.takeWhile fun c ↦ (Text.digitValue? c).isSome
  if maxDigits < readable.length then .error (.excessDigits maxDigits readable.length)
  else match Text.natOfDigits? digits with
    | some n => .ok n
    | none => .error (.unreadableDigits (String.ofList digits))

/-- The digits behind the point, filled up with zeros to 18 places. -/
def filledFraction (n : Numeral) : List Char :=
  n.fraction ++ List.replicate (Decimal.places - n.fraction.length) '0'

/-- The magnitude in raw units. -/
def magnitude (n : Numeral) : Except Fault Nat := do
  return (← natOfRow n.whole) * Decimal.scale + (← natOfRow n.filledFraction)

end Numeral

/-- The number of raw units that a text denotes. -/
def rawOfText (text : String) : Except Fault Int :=
  match Numeral.ofText? text with
  | none => .error (.arithmetic (.malformedNumeral text))
  | some n =>
    if Decimal.places < n.fraction.length then .error (.arithmetic (.excessPlaces text))
    else do
      let magnitude ← n.magnitude
      return if n.negative then -magnitude else magnitude

/-- Reads an unsigned decimal. -/
def Decimal.ofText (text : String) : Except Fault Decimal := do
  Decimal.ofRaw (← rawOfText text)

/-- Reads a signed decimal. -/
def SignedDecimal.ofText (text : String) : Except Fault SignedDecimal := do
  SignedDecimal.ofRaw (← rawOfText text)

end ConcentratedPool
