import ConcentratedPool.Text.Printable

/-!
# Quoted text

`quote` writes a text between quotes on one line of printable characters. The quote is `'` unless
the text holds a `'` and no `"`; the backslash and the chosen quote are escaped by a backslash, and
every character that does not print is written by name (`\n`, `\r`, `\t`) or by code point.
-/

set_option autoImplicit false
set_option relaxedAutoImplicit false

namespace ConcentratedPool.Text

/-- The hexadecimal digits of `n`, padded with zeros to `width` of them. -/
def hexOfWidth : Nat → Nat → List Char
  | 0, _ => []
  | width + 1, n => hexOfWidth width (n / 16) ++ [Nat.digitChar (n % 16)]

/-- The mark that encloses a text: a double one only where that saves an escape. -/
def quoteMark (cs : List Char) : Char :=
  if cs.contains '\'' && !cs.contains '"' then '"' else '\''

/-- How one character is written between two marks. -/
def escape (mark c : Char) : List Char :=
  if c = mark ∨ c = '\\' then ['\\', c]
  else if c = '\t' then ['\\', 't']
  else if c = '\n' then ['\\', 'n']
  else if c = '\r' then ['\\', 'r']
  else if isPrintable c then [c]
  else if c.toNat < 0x100 then ['\\', 'x'] ++ hexOfWidth 2 c.toNat
  else if c.toNat < 0x10000 then ['\\', 'u'] ++ hexOfWidth 4 c.toNat
  else ['\\', 'U'] ++ hexOfWidth 8 c.toNat

/-- A text between quotes. -/
def quote (text : String) : String :=
  let cs := text.toList
  let mark := quoteMark cs
  String.ofList ([mark] ++ cs.flatMap (escape mark) ++ [mark])

end ConcentratedPool.Text
