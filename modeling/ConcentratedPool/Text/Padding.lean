/-!
# Padding

`padRight` fills a text up with blanks, so that what follows starts in one column.
-/

set_option autoImplicit false
set_option relaxedAutoImplicit false

namespace ConcentratedPool.Text

/-- A text filled up with blanks on the right to a width; a longer one stays as it is. -/
def padRight (width : Nat) (text : String) : String :=
  text ++ String.ofList (List.replicate (width - text.length) ' ')

end ConcentratedPool.Text
