import ConcentratedPool.CommandLine.Usage
import ConcentratedPool.Text.Digit

/-!
# Words of a command line

A `Word` is what one argument of the command line means on its own. A long option may be shortened
as long as no other option starts in the same way, and its value may follow an equals sign; short
switches may share one dash, and an equals sign may follow the first of them. A negative number, a
lone dash and any text with a blank in it that is no option are values, as are every text that does
not start with a dash and all that follows two dashes.
-/

set_option autoImplicit false
set_option relaxedAutoImplicit false

namespace ConcentratedPool.CommandLine

/-- What one argument means. -/
inductive Word where
  | value (text : String)
  | option (option : ValueOption) (attached : Option String)
  | flags (list : List Switch)
  /-- A switch with a value, which it does not take. -/
  | surplusValue (text : String)
  /-- A text that looks like an option and is none. -/
  | unknown (text : String)
  /-- Two dashes: everything behind them is a value. -/
  | separator
deriving DecidableEq, Repr

namespace Word

/-- What a long name stands for. -/
abbrev Target : Type := ValueOption ⊕ Switch

/-- The long names with what they stand for. -/
def longNames : List (List Char × Target) :=
  (options.map fun o ↦ (o.name.toList, .inl o)) ++
    switches.map fun s ↦ (s.names.1.toList, .inr s)

/-- What a long name may stand for: the one with exactly this name, or else all that start with
it. -/
def candidates (name : List Char) : List Target :=
  match longNames.lookup name with
  | some target => [target]
  | none => (longNames.filter fun entry ↦ name.isPrefixOf entry.1).map (·.2)

/-- Splits a long word at its first equals sign. -/
def splitValue (cs : List Char) : List Char × Option String :=
  match cs.dropWhile (· ≠ '=') with
  | [] => (cs, none)
  | _ :: text => (cs.takeWhile (· ≠ '='), some (String.ofList text))

/-- Whether all of at least one characters are digits. -/
def areDigits (cs : List Char) : Bool :=
  !cs.isEmpty && cs.all fun c ↦ (Text.digitValue? c).isSome

/-- Whether the text behind a dash makes it a negative number: digits, with a point in front of the
last ones if there is a point. A line end at the end does not count. -/
def isMagnitude (cs : List Char) : Bool :=
  let cs := if cs.getLast? = some '\n' then cs.dropLast else cs
  match cs.dropWhile (· ≠ '.') with
  | [] => areDigits cs
  | _ :: fraction =>
    let whole := cs.takeWhile (· ≠ '.')
    (whole.isEmpty || areDigits whole) && areDigits fraction

/-- A text that starts with a dash and is no option: a value where it looks like one. -/
def orValue (text : String) : Word :=
  if isMagnitude (text.toList.drop 1) || text.contains ' ' then .value text else .unknown text

/-- Reads a text that starts with two dashes. -/
def readLong (text : String) : Except UsageFault Word :=
  let (name, attached) := splitValue text.toList
  match candidates name, attached with
  | [], _ => .ok (orValue text)
  | [.inl o], _ => .ok (.option o attached)
  | [.inr s], none => .ok (.flags [s])
  | [.inr _], some _ => .ok (.surplusValue text)
  | _, _ => .error (.ambiguous text)

/-- The switch with a short name. -/
def switch? (c : Char) : Option Switch := switches.find? fun s ↦ s.names.2 == c

/-- The short names in a text behind its dash. An equals sign behind the first one does not count,
unless it is the last character. -/
def shortNames : List Char → List Char
  | first :: '=' :: second :: rest => first :: second :: rest
  | names => names

/-- Reads a text that starts with one dash: short switches, or no option at all. -/
def readShort (text : String) : Word :=
  let names := shortNames (text.toList.drop 1)
  match names.mapM switch? with
  | some list => .flags list
  | none => if (names.head?.bind switch?).isSome then .surplusValue text else orValue text

/-- Reads one argument. -/
def read (text : String) : Except UsageFault Word :=
  match text.toList with
  | ['-', '-'] => .ok .separator
  | '-' :: '-' :: _ => readLong text
  | '-' :: _ :: _ => .ok (readShort text)
  | _ => .ok (.value text)

/-- Reads all arguments. -/
def readAll : List String → Except UsageFault (List Word)
  | [] => .ok []
  | text :: rest => do
    match ← read text with
    | .separator => return .separator :: rest.map .value
    | word => return word :: (← readAll rest)

end Word

end ConcentratedPool.CommandLine
