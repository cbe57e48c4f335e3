/-!
# Blank characters

`isBlank` is the class of characters that `trim` removes from both ends of a text: the Unicode
white space together with the four information separators `U+001C` to `U+001F`.
-/

set_option autoImplicit false
set_option relaxedAutoImplicit false

namespace ConcentratedPool.Text

/-- Tabs, line and page ends, the information separators, and every Unicode space. The zero width
space and the byte order mark are not blank. -/
def isBlank (c : Char) : Bool :=
  let n := c.toNat
  (0x09 ≤ n && n ≤ 0x0D) || (0x1C ≤ n && n ≤ 0x20) || n == 0x85 || n == 0xA0 || n == 0x1680 ||
    (0x2000 ≤ n && n ≤ 0x200A) || n == 0x2028 || n == 0x2029 || n == 0x202F || n == 0x205F ||
    n == 0x3000

/-- Removes the blanks at both ends. -/
def trim (cs : List Char) : List Char :=
  ((cs.dropWhile isBlank).reverse.dropWhile isBlank).reverse

@[simp] theorem trim_nil : trim [] = [] := rfl

end ConcentratedPool.Text
