/-!
# Upper case

`upperCase` writes a text in capital letters. Besides the letters of the first alphabet it knows the
letters elsewhere whose capitals belong to it: the long s, the dotless i, the sharp s and the
ligatures of Latin letters. All other characters stay as they are, so the result is right wherever
it consists of characters of the first alphabet.
-/

set_option autoImplicit false
set_option relaxedAutoImplicit false

namespace ConcentratedPool.Text

/-- The capitals of letters outside the first alphabet that have their capitals in it. -/
def foreignCapitals : List (Char × List Char) :=
  [('ſ', ['S']), ('ı', ['I']), ('ß', ['S', 'S']), ('ﬀ', ['F', 'F']), ('ﬁ', ['F', 'I']),
    ('ﬂ', ['F', 'L']), ('ﬃ', ['F', 'F', 'I']), ('ﬄ', ['F', 'F', 'L']), ('ﬅ', ['S', 'T']),
    ('ﬆ', ['S', 'T'])]

/-- The capitals of one character. -/
def capitals (c : Char) : List Char :=
  (foreignCapitals.lookup c).getD [c.toUpper]

/-- A text in capital letters. -/
def upperCase (text : String) : String :=
  String.ofList (text.toList.flatMap capitals)

end ConcentratedPool.Text
