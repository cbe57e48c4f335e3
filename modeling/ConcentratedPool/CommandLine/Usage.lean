/-!
# Options of the command line

`options` lists what the command line knows, with the kind of value that each option takes.
`UsageFault` says what is wrong with a command line. The texts that explain it and its faults are
left out.
-/

set_option autoImplicit false
set_option relaxedAutoImplicit false

namespace ConcentratedPool.CommandLine

/-- What follows an option. -/
inductive ValueKind where
  | text
  | wholeNumber
  | number
  | oneOf (choices : List String)
deriving DecidableEq, Repr

/-- An option with a value. -/
structure ValueOption where
  /-- The name with its dashes. -/
  name : String
  /-- The field that the value is stored in. -/
  field : String
  kind : ValueKind
deriving DecidableEq, Repr

/-- The options with a value. -/
def options : List ValueOption :=
  [⟨"--scenario", "scenario", .oneOf ["calm", "trending", "volatile", "flash_crash"]⟩,
    ⟨"--steps", "steps", .wholeNumber⟩,
    ⟨"--step-seconds", "step_seconds", .wholeNumber⟩,
    ⟨"--initial-price", "initial_price", .text⟩,
    ⟨"--volatility", "volatility", .number⟩,
    ⟨"--drift", "drift", .number⟩,
    ⟨"--initial-liquidity", "initial_liquidity", .wholeNumber⟩,
    ⟨"--seed", "seed", .wholeNumber⟩,
    ⟨"--shock", "shock", .number⟩,
    ⟨"--shock-step", "shock_step", .wholeNumber⟩,
    ⟨"--maker-fee-share", "maker_fee_share", .text⟩,
    ⟨"--output-dir", "output_dir", .text⟩]

/-- The options without a value. -/
inductive Switch where
  | help
  | verbose
deriving DecidableEq, Repr

/-- The long and the short name of a switch. -/
def Switch.names : Switch → String × Char
  | help => ("--help", 'h')
  | verbose => ("--verbose", 'v')

/-- The switches. -/
def switches : List Switch := [.help, .verbose]

/-- What is wrong with a command line, or a call for help. -/
inductive UsageFault where
  | help
  | unknown (words : List String)
  | ambiguous (word : String)
  | missingValue (option : String)
  | invalidValue (option value : String)
  | surplusValue (word : String)
deriving DecidableEq, Repr

end ConcentratedPool.CommandLine
