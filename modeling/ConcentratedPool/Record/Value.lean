/-!
# Values from outside

`Value` is what a field of a record may hold before it is read: the values of a data file, in which
whole numbers and floats are told apart.
-/

set_option autoImplicit false
set_option relaxedAutoImplicit false

namespace ConcentratedPool

/-- A value that has not been read as a field yet. -/
inductive Value where
  | null
  | flag (value : Bool)
  | integer (value : Int)
  | float (value : Float)
  | text (value : String)
  | list (items : List Value)
  | record (fields : List (String × Value))
deriving Inhabited

namespace Value

/-- Whether a value is null. -/
def isNull : Value → Bool
  | .null => true
  | _ => false

/-- Whether a value says nothing: null, no, zero, or without content. -/
def isVoid : Value → Bool
  | .null => true
  | .flag value => !value
  | .integer value => value == 0
  | .float value => value == 0.0
  | .text value => value.isEmpty
  | .list items => items.isEmpty
  | .record fields => fields.isEmpty

/-- The value of the last field of that name. -/
def field? (fields : List (String × Value)) (name : String) : Option Value :=
  (fields.reverse.find? fun field ↦ field.1 == name).map (·.2)

end Value

end ConcentratedPool
