import ConcentratedPool.Numeric.Binary64
import ConcentratedPool.Text.Blank
import ConcentratedPool.Text.Digit

/-!
# Numerals of floats and of whole numbers

`Scientific` is what a float numeral denotes exactly; `Scientific.toFloat` rounds it to the nearest
float, to an infinity beyond the largest one. `floatOfText?` and `intOfText?` read numerals that
people type: blanks around them, digits of any script, and single underscores between digits.
-/

set_option autoImplicit false
set_option relaxedAutoImplicit false

namespace ConcentratedPool.Numeric

/-- The value `± digits · 10 ^ exponent`. -/
structure Scientific where
  negative : Bool
  digits : Nat
  exponent : Int
deriving DecidableEq, Repr

/-- Positive infinity. -/
def infinity : Float := Float.ofBits (UInt64.ofNat infinityBits)

/-- The nearest float. Values of more than 310 places before the point are infinite, and values with
more than 330 zeros behind it are zero, whatever their exponent. -/
def Scientific.toFloat (s : Scientific) : Float :=
  let order : Int := (Nat.toDigits 10 s.digits).length + s.exponent
  let infinite := if s.negative then -infinity else infinity
  if s.digits = 0 ∨ order < -330 then (if s.negative then -0.0 else 0.0)
  else if 310 < order then infinite
  else (nearestRatio s.negative (s.digits * Nat.pow 10 s.exponent.toNat)
    (Nat.pow 10 (-s.exponent).toNat)).getD infinite

/-- The value of a row of decimal digits of the first script. -/
def natOfAscii? (cs : List Char) : Option Nat :=
  if !cs.isEmpty && cs.all Char.isDigit then Text.natOfDigits? cs else none

/-- A whole number in decimal digits with an optional sign. -/
def signedOfAscii? (cs : List Char) : Option Int :=
  let (negative, digits) := Text.splitSign cs
  (natOfAscii? digits).map fun n ↦ if negative then -(n : Int) else n

/-- The exponent behind a mantissa: nothing, or an `e` with a whole number. -/
def exponentOfAscii? : List Char → Option Int
  | [] => some 0
  | c :: rest => if c.toLower = 'e' then signedOfAscii? rest else none

/-- A numeral of digits with at most one point, at least one digit and an optional exponent. -/
def scientificOfAscii? (cs : List Char) : Option Scientific := do
  let (negative, cs) := Text.splitSign cs
  let mantissa := cs.takeWhile fun c ↦ c.isDigit || c == '.'
  let exponent ← exponentOfAscii? (cs.drop mantissa.length)
  let whole := mantissa.takeWhile (· ≠ '.')
  let fraction := (mantissa.dropWhile (· ≠ '.')).drop 1
  let digits ← natOfAscii? (whole ++ fraction)
  return ⟨negative, digits, exponent - fraction.length⟩

/-- A float numeral, or one of the words for an infinity and for not-a-number. -/
def floatOfAscii? (cs : List Char) : Option Float :=
  let (negative, rest) := Text.splitSign cs
  let word := String.ofList (rest.map Char.toLower)
  if word = "inf" ∨ word = "infinity" then some (if negative then -infinity else infinity)
  else if word = "nan" then some (0.0 / 0.0)
  else (scientificOfAscii? cs).map Scientific.toFloat

/-- The blanks around a numeral; the information separators are none. -/
def isNumeralBlank (c : Char) : Bool :=
  Text.isBlank c && !(0x1C ≤ c.toNat && c.toNat ≤ 0x1F)

/-- Removes the blanks around a numeral. -/
def trimNumeral (cs : List Char) : List Char :=
  ((cs.dropWhile isNumeralBlank).reverse.dropWhile isNumeralBlank).reverse

/-- Writes the decimal digits of every script in the first one. -/
def foldDigits (cs : List Char) : List Char :=
  cs.map fun c ↦ ((Text.digitValue? c).map Nat.digitChar).getD c

/-- Drops the underscores of a text, each of which has to stand between two digits. -/
def dropSeparators? : List Char → Option (List Char)
  | [] => some []
  | '_' :: _ => none
  | c :: '_' :: d :: rest =>
    if c.isDigit && d.isDigit then (dropSeparators? (d :: rest)).map (c :: ·) else none
  | c :: rest => (dropSeparators? rest).map (c :: ·)

/-- Reads a typed numeral of a float. -/
def floatOfText? (text : String) : Option Float := do
  floatOfAscii? (← dropSeparators? (foldDigits (trimNumeral text.toList)))

/-- Reads a typed numeral of a whole number, of no more than 4300 digits. -/
def intOfText? (text : String) : Option Int := do
  let cs ← dropSeparators? (foldDigits (trimNumeral text.toList))
  if 4300 < (Text.splitSign cs).2.length then none else signedOfAscii? cs

end ConcentratedPool.Numeric
