import ConcentratedPool.Curve.Basic
import ConcentratedPool.Iteration

/-!
# Solving the curve

`Curve.solveInvariant` finds the invariant of two balances and `Curve.solveBalance` the balance on
one side that belongs to an invariant and the other balance, both by Newton's method. A step that
would leave the positive numbers halves the last iterate instead.
-/

set_option autoImplicit false
set_option relaxedAutoImplicit false

namespace ConcentratedPool

/-- The geometric mean of two balances. -/
def geometricMean (x : Pair Decimal) : Except Fault Decimal := do
  (← x.base * x.quote).sqrt

namespace Curve

/-- Newton's step from `x`, or half of `x` where the step leaves the positive numbers. -/
def newtonStep (x value slope : SignedDecimal) : Except Fault SignedDecimal := do
  let next ← x - (← value / slope)
  if next.isNegative || next.isZero then x / SignedDecimal.two else return next

/-- One step toward the invariant of the balances `x`. -/
def stepInvariant (c : Curve) (x : Pair SignedDecimal) (d : SignedDecimal) :
    Except Fault SignedDecimal := do
  newtonStep d (← c.residual d x) (← c.slopeInvariant d x)

/-- One step toward the balance on one side. -/
def stepBalance (c : Curve) (x : Pair SignedDecimal) (d : SignedDecimal) (side : Side)
    (y : SignedDecimal) : Except Fault SignedDecimal := do
  let x := x.set side y
  newtonStep y (← c.residual d x) (← c.slopeBalance d x side)

/-- The invariant of the balances `x`, starting from that of a constant product. -/
def solveInvariant (c : Curve) (x : Pair Decimal) : Except Fault Decimal := do
  let start ← Decimal.two * (← geometricMean x)
  let d ← settle .invariant (c.stepInvariant (x.map Decimal.toSigned)) SignedDecimal.isClose
    Limits.maxIterations start.toSigned
  d.toUnsigned

/-- The balance on one side that belongs to the invariant `d` and the balance on the other side,
starting from that of a constant product. -/
def solveBalance (c : Curve) (x : Pair Decimal) (d : Decimal) (side : Side) :
    Except Fault Decimal := do
  let x := x.map Decimal.toSigned
  let d := d.toSigned
  let start ← (← d * d) / (← SignedDecimal.four * x.get side.other)
  let y ← settle .balance (c.stepBalance x d side) SignedDecimal.isClose
    Limits.maxIterations start
  y.toUnsigned

end Curve

end ConcentratedPool
