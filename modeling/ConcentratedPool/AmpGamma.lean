import ConcentratedPool.Curve.Solver

/-!
# Curve parameters

`AmpGamma` holds the amplification and the concentration of a pool. `AmpGamma.invariant` and
`AmpGamma.balance` solve the curve of these parameters for checked balances.
-/

set_option autoImplicit false
set_option relaxedAutoImplicit false

namespace ConcentratedPool

/-- Refuses a decimal parameter outside a closed range. -/
def checkRange (name : String) (value low high : Decimal) : Except Fault Unit :=
  if low ≤ value ∧ value ≤ high then .ok ()
  else .error (.parameter name value.render s!"[{low.render}, {high.render}]")

/-- Refuses a whole parameter outside a closed range. -/
def checkIntRange (name : String) (value low high : Int) : Except Fault Unit :=
  if low ≤ value ∧ value ≤ high then .ok ()
  else .error (.parameter name (toString value) s!"[{low}, {high}]")

/-- The amplification and the concentration of a pool. -/
@[ext] structure AmpGamma where
  amp : Decimal
  gamma : Decimal
deriving DecidableEq

namespace AmpGamma

/-- Curve parameters in their allowed ranges. -/
def new (amp gamma : Decimal) : Except Fault AmpGamma := do
  checkRange "amp" amp Limits.minAmplification Limits.maxAmplification
  checkRange "gamma" gamma Limits.minGamma Limits.maxGamma
  return ⟨amp, gamma⟩

/-- The curve of the parameters. -/
def curve (a : AmpGamma) : Curve := ⟨a.amp.toSigned, a.gamma.toSigned⟩

/-- Two positive balances. -/
def positiveBalances (xs : List Decimal) : Except Fault (Pair Decimal) := do
  let x ← Pair.ofBalances xs
  if x.any Decimal.isZero then throw (.zeroAmount .poolBalance)
  return x

/-- The invariant of two positive balances. -/
def invariant (a : AmpGamma) (xs : List Decimal) : Except Fault Decimal := do
  a.curve.solveInvariant (← positiveBalances xs)

/-- The balance on one side that keeps a positive invariant. -/
def balance (a : AmpGamma) (xs : List Decimal) (d : Decimal) (side : Side) :
    Except Fault Decimal := do
  let x ← positiveBalances xs
  if d.isZero then throw (.zeroAmount .invariant)
  a.curve.solveBalance x d side

end AmpGamma

/-- The capital of a balanced pool with the invariant `d` at a price scale:
`d / (2 √scale)`. -/
def virtualCapital (d scale : Decimal) : Except Fault Decimal := do
  let base ← d / Decimal.two
  let quote ← d / (← Decimal.two * scale)
  geometricMean ⟨base, quote⟩

end ConcentratedPool
