import ConcentratedPool.Numeric.FloatNumeral

/-!
# Numerals in fields

A field for a number also takes the numeral of one as a text. What does not change a whole number is
dropped first (`cleanInt?`): blanks around it, a plus sign, zeros in front, a fraction of zeros and
single underscores. What is left must be digits behind at most a minus sign. The numeral of a float
has blanks around it or single underscores inside, but not both. Only the digits of the first script
are read.
-/

set_option autoImplicit false
set_option relaxedAutoImplicit false

namespace ConcentratedPool.Record

/-- Drops the underscores inside a text. Where one stands at an end or next to another they are no
separators, and all of them stay. -/
def dropUnderscores (cs : List Char) : List Char :=
  let doubled := (cs.zip (cs.drop 1)).any fun p ↦ p.1 == '_' && p.2 == '_'
  if cs.head? == some '_' || cs.getLast? == some '_' || doubled then cs
  else cs.filter (· ≠ '_')

/-- Drops a point behind which there are zeros and nothing else. -/
def dropZeroFraction (cs : List Char) : List Char :=
  let fraction := (cs.dropWhile (· ≠ '.')).drop 1
  if !fraction.isEmpty && fraction.all (· = '0') then cs.takeWhile (· ≠ '.') else cs

/-- Whether a whole number can begin with a character, a zero in front apart. -/
def beginsInt (c : Char) : Bool := c == '-' || (c.isDigit && c ≠ '0')

/-- Drops zeros, and underscores among them, behind a zero in front or an underscore, `last`. That
one is kept where no digit follows. -/
def dropZerosBehind (last : Char) : List Char → Option (List Char)
  | [] => some [last]
  | c :: rest =>
    if c = '0' ∨ c = '_' then dropZerosBehind c rest
    else if c = '.' then some (last :: c :: rest)
    else if beginsInt c then some (c :: rest)
    else none

/-- Drops the zeros in front of a number. -/
def dropZerosInFront? : List Char → Option (List Char)
  | [] => none
  | c :: rest =>
    if c = '0' then dropZerosBehind c rest
    else if beginsInt c then some (c :: rest)
    else none

/-- Drops a plus sign, which no minus sign may follow. -/
def dropPlus? : List Char → Option (List Char)
  | '+' :: rest => if rest.head? = some '-' then none else some rest
  | cs => some cs

/-- The numeral of a whole number without what does not change its value. -/
def cleanInt? (cs : List Char) : Option (List Char) := do
  let unsigned ← dropPlus? (Numeric.trimNumeral cs)
  return dropUnderscores (dropZeroFraction (← dropZerosInFront? unsigned))

/-- What reading a numeral of a whole number comes to. -/
inductive IntReading where
  | value (n : Int)
  | tooLong
  | malformed
deriving DecidableEq, Repr

/-- The longest whole number that is read, its sign included. -/
def maxIntLength : Nat := 4300

/-- Reads digits behind at most a minus sign. A numeral that goes on for too long is not read to its
end. -/
def readPlainInt (cs : List Char) : IntReading :=
  let (negative, unsigned) := Text.splitSign cs
  let digits := unsigned.takeWhile Char.isDigit
  if maxIntLength < cs.length - unsigned.length + digits.length then .tooLong
  else if digits ≠ unsigned then .malformed
  else match Numeric.natOfAscii? digits with
    | some n => .value (if negative then -n else n)
    | none => .malformed

/-- Reads the numeral of a whole number. -/
def readInt (text : String) : IntReading :=
  match cleanInt? text.toList with
  | some cs => readPlainInt cs
  | none => .malformed

/-- Reads the numeral of a float. -/
def readFloat? (text : String) : Option Float :=
  match Numeric.floatOfAscii? (Numeric.trimNumeral text.toList) with
  | some x => some x
  | none => Numeric.floatOfAscii? (dropUnderscores text.toList)

end ConcentratedPool.Record
