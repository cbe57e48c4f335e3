import ConcentratedPool.CommandLine.Word
import ConcentratedPool.Numeric.FloatNumeral
import ConcentratedPool.Record.Reading

/-!
# Requests from the command line

A `Request` holds what a command line asks for: the fields that its options give. The switch for a
longer log asks for nothing else. `Request.ofArguments` reads one. Every argument has to be an option, the value of one, or a switch;
of an option that is given twice the later value counts.
-/

set_option autoImplicit false
set_option relaxedAutoImplicit false

namespace ConcentratedPool.CommandLine

/-- The value that a text stands for. -/
def ValueKind.read? : ValueKind → String → Option Value
  | text, given => some (.text given)
  | wholeNumber, given => (Numeric.intOfText? given).map .integer
  | number, given => (Numeric.floatOfText? given).map .float
  | oneOf choices, given => if choices.contains given then some (.text given) else none

/-- What a command line asks for. -/
structure Request where
  fields : Record.Fields
  /-- The words that ask for nothing. -/
  surplus : List String

namespace Request

/-- The request with the value of one more option. -/
def give (r : Request) (option : ValueOption) (text : String) : Except UsageFault Request :=
  match option.kind.read? text with
  | some value => .ok { r with fields := r.fields ++ [(option.field, value)] }
  | none => .error (.invalidValue option.name text)

/-- The request with an option whose value follows an equals sign. Two dashes are no value there:
the option is given an empty list. -/
def giveAttached (r : Request) (option : ValueOption) (text : String) : Except UsageFault Request :=
  if text = "--" then .ok { r with fields := r.fields ++ [(option.field, .list [])] }
  else r.give option text

/-- The request with a word that asks for nothing. -/
def leave (r : Request) (text : String) : Request := { r with surplus := r.surplus ++ [text] }

/-- Reads words on top of a request. An option that waits for its value is `pending`. -/
def read (r : Request) (pending : Option ValueOption) : List Word → Except UsageFault Request
  | [] =>
    match pending with
    | none => .ok r
    | some option => .error (.missingValue option.name)
  | word :: rest => do
    match word, pending with
    | .value text, some option => read (← r.give option text) none rest
    | _, some option => throw (.missingValue option.name)
    | .option option (some text), none => read (← r.giveAttached option text) none rest
    | .option option none, none => read r (some option) rest
    | .flags list, none =>
      if list.contains .help then throw .help
      read r none rest
    | .surplusValue text, none => throw (.surplusValue text)
    | .value text, none | .unknown text, none => read (r.leave text) none rest
    | .separator, none => read (r.leave "--") none rest

/-- Reads the arguments of a command line. Words that ask for nothing are refused at the end. -/
def ofArguments (arguments : List String) : Except UsageFault Request := do
  let request ← read ⟨[], []⟩ none (← Word.readAll arguments)
  if request.surplus.isEmpty then return request
  throw (.unknown request.surplus)

end Request

end ConcentratedPool.CommandLine
