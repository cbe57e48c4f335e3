import ConcentratedPool.Decimal.Arithmetic
import ConcentratedPool.Limits

/-!
# Iterations that settle

`settle` repeats a step until two neighbouring iterates are close, and gives up after a fixed number
of steps. It never returns an iterate that has not settled.
-/

set_option autoImplicit false
set_option relaxedAutoImplicit false

namespace ConcentratedPool

/-- Repeats `step` from `x`, at most `steps` times, until the next iterate is `close` to the last. -/
def settle {α : Type} (solver : Solver) (step : α → Except Fault α)
    (close : α → α → Except Fault Bool) : Nat → α → Except Fault α
  | 0, _ => .error (.notConverging solver)
  | steps + 1, x => do
    let next ← step x
    if ← close next x then return next
    settle solver step close steps next

/-- Whether two decimals are within the tolerance of the solvers. -/
def Decimal.isClose (a b : Decimal) : Except Fault Bool :=
  .ok (a.distance b ≤ Limits.tolerance)

/-- Whether two signed decimals are within the tolerance of the solvers; their distance has to be a
signed decimal itself. -/
def SignedDecimal.isClose (a b : SignedDecimal) : Except Fault Bool := do
  return (← a.distance b) ≤ Limits.tolerance.toSigned

end ConcentratedPool
