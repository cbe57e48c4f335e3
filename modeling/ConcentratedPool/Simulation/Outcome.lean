import ConcentratedPool.Simulation.Run

/-!
# Outcomes of a simulation

An `Outcome` says what a run came to for the provider of the liquidity: what the shares would pay
out now, and what the deposit would be worth if it had been kept. Both are valued in base units at
one market price.
-/

set_option autoImplicit false
set_option relaxedAutoImplicit false

namespace ConcentratedPool

/-- What a run came to. -/
structure Outcome where
  /-- The market price that values are taken at. -/
  price : Float
  /-- What the provider's shares would pay out. -/
  refunds : Pair Nat
  /-- The value of the pay-out. -/
  withdrawValue : Float
  /-- The value of the deposit had it been kept. -/
  holdValue : Float
  /-- The provider's shares. -/
  providerShare : Float
  /-- The fees that left the pool. -/
  makerFees : Pair Float
  /-- The parameters and prices of the pool. -/
  summary : PoolSummary

namespace Simulation

/-- Token amounts of both assets in whole tokens. -/
def inWholeTokens (s : Simulation) (amounts : Pair Int) : Except Fault (Pair Float) := do
  let pool := s.ledger.pool
  return ⟨← Market.wholeTokens amounts.base (pool.precision .base),
    ← Market.wholeTokens amounts.quote (pool.precision .quote)⟩

/-- The value of token amounts in base units. -/
def valueOf (s : Simulation) (amounts : Pair Int) (price : Float) : Except Fault Float := do
  let tokens ← s.inWholeTokens amounts
  return tokens.base + tokens.quote * price

/-- The outcome so far. Values are taken at the price whose position in the path is the number of
snapshots before the last one. -/
def outcome (s : Simulation) : Except Fault Outcome := do
  let price ← s.priceAt (s.snapshots.length - 1)
  let ledger := s.ledger
  let (refunds, _) ←
    ledger.pool.withdraw ledger.balances s.providerShare ledger.supply s.now []
  return {
    price, refunds
    withdrawValue := ← s.valueOf (refunds.map Int.ofNat) price
    holdValue := ← s.valueOf s.initialDeposit price
    providerShare := ← Market.wholeTokens s.providerShare Limits.sharePrecision
    makerFees := ← s.inWholeTokens (s.makerFees.map Int.ofNat)
    summary := ledger.pool.summary s.now }

/-- A run in which the simulation's own trader trades, and its outcome. -/
def run (steps : Option Int) (s : Simulation) : Except Fault (Outcome × Simulation) := do
  let next ← s.runWith s.arbitrageur.findTrade steps
  return (← next.outcome, next)

/-- The outcome of the last of several runs, one after the other. -/
def runAll (s : Simulation) : List (Option Int) → Except Fault (Option Outcome × Simulation)
  | [] => .ok (none, s)
  | steps :: rest => do
    let (outcome, next) ← s.run steps
    if rest.isEmpty then return (some outcome, next)
    next.runAll rest

end Simulation

end ConcentratedPool
