import ConcentratedPool.Decimal.Arithmetic
import ConcentratedPool.Limits
import ConcentratedPool.Pair

/-!
# Fees that follow the balance of the pool

The fee rate lies between the middle fee of an even pool and the outer fee of a skewed one. Balances
are in units of equal value throughout.
-/

set_option autoImplicit false
set_option relaxedAutoImplicit false

namespace ConcentratedPool

/-- The fee parameters of a pool. -/
structure FeeSchedule where
  mid : Decimal
  out : Decimal
  gamma : Decimal
deriving DecidableEq

namespace Fee

/-- How far two balances are from even, `1 - 4 x₀ x₁ / (x₀ + x₁)²`: zero for even ones, toward one
as the pool is skewed. An empty pool counts as even. -/
def skew (x : Pair Decimal) : Except Fault Decimal := do
  let total ← x.base + x.quote
  if total.isZero then return .zero
  let evenness ← (← (← x.base * x.quote) * Decimal.four) / (← total * total)
  return Decimal.one.monus evenness

/-- The share of the outer fee, `skew / (skew + gamma)`. It counts as one as soon as the share of
the middle fee is negligible. -/
def outerShare (x : Pair Decimal) (gamma : Decimal) : Except Fault Decimal := do
  let s ← skew x
  let share ← s / (← s + gamma)
  if (← Decimal.one - share) ≤ Limits.feeTolerance then return .one
  return share

/-- The fee rate of a swap. -/
def rate (x : Pair Decimal) (schedule : FeeSchedule) : Except Fault Decimal := do
  let share ← outerShare x schedule.gamma
  schedule.mid + (← (← schedule.out - schedule.mid) * share)

/-- The fee rate of a deposit: the part of it that has to be traded to match the ratio of the pool,
at the fee rate of a swap. -/
def depositRate (deposit x : Pair Decimal) (schedule : FeeSchedule) : Except Fault Decimal := do
  let total ← deposit.base + deposit.quote
  let poolTotal ← x.base + x.quote
  if total.isZero || poolTotal.isZero then return .zero
  let balanced ← (← total * x.base) / poolTotal
  (← deposit.base.distance balanced * (← rate x schedule)) / total

/-- Splits a fee into the maker's part and the pool's. -/
def split (fee makerShare : Decimal) : Except Fault (Decimal × Decimal) := do
  let maker ← fee * makerShare
  return (maker, ← fee - maker)

end Fee

end ConcentratedPool
