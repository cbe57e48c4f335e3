import ConcentratedPool.Fault
import ConcentratedPool.Numeric.Binary64

/-!
# Token amounts as floats

Markets quote prices as floats, so amounts are valued as floats too: each is the float nearest to
the exact number of whole tokens.
-/

set_option autoImplicit false
set_option relaxedAutoImplicit false

namespace ConcentratedPool.Market

/-- The float nearest to a whole number. -/
def floatOfInt (n : Int) : Except Fault Float :=
  match Numeric.nearestInt n with
  | some x => .ok x
  | none => .error .floatRange

/-- The whole number that is left when the fraction of a float is dropped. -/
def wholePart (x : Float) : Except Fault Int :=
  match Numeric.truncate? x with
  | some n => .ok n
  | none => .error (if x.isNaN then .notANumber else .floatRange)

/-- A token amount in whole tokens. With fewer than no places an amount counts tens or more of whole
tokens, and the size of its unit is a float itself. -/
def wholeTokens (amount precision : Int) : Except Fault Float :=
  if precision < 0 then do
    return (← floatOfInt amount) / Float.pow 10.0 (Float.ofInt precision)
  else
    match Numeric.nearestQuotient amount (Nat.pow 10 precision.toNat) with
    | some x => .ok x
    | none => .error .floatRange

end ConcentratedPool.Market
