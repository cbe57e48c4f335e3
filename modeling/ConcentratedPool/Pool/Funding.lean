import ConcentratedPool.Pool.Basic

/-!
# Deposits into a pool and withdrawals from it

`Pool.deposit` mints shares for token amounts of both assets and `Pool.withdraw` burns them for
their part of both balances. The balances are those before the operation.
-/

set_option autoImplicit false
set_option relaxedAutoImplicit false

namespace ConcentratedPool

/-- What a deposit came to. -/
structure DepositReceipt where
  /-- The shares of the depositor. -/
  minted : Nat
  /-- The shares that stay with the pool for ever. -/
  locked : Nat
  /-- The fee rate on the shares. -/
  fee : Decimal
  /-- Whether the price scale moved. -/
  moved : Bool
deriving DecidableEq

namespace Pool

/-- The pool after the first deposit, with `supply` shares outstanding: the profit counters
start. -/
def startProfit (p : Pool) (capital : Decimal) (supply : Int) : Except Fault Pool := do
  let virtualPrice ← capital / (← liftShares supply)
  return { p with state.price := { p.state.price with capital, profit := .one, virtualPrice } }

/-- Deposits token amounts of both assets, with `supply` shares outstanding. -/
def deposit (p : Pool) (balances amounts : List Int) (supply now : Int) :
    Except Fault (DepositReceipt × Pool) := do
  let pools ← p.lift balances
  let deposits ← p.lift amounts
  let supply ← liftShares supply
  let q ← quoteDeposit p.state p.params pools deposits supply now
  let minted ← q.share.toTokens Limits.sharePrecision
  if q.isFirst then
    let next ← p.startProfit q.capital (minted + Limits.lockedShares : Nat)
    return (⟨minted, Limits.lockedShares, q.fee, false⟩, next)
  match q.lastPrice with
  | none => return (⟨minted, 0, q.fee, false⟩, p.withCapital q.capital)
  | some price =>
    let (settled, moved) ← p.settlePrice now (← supply + (← liftShares minted)) q.balances price
    let next ← settled.accumulate now price
    return (⟨minted, 0, q.fee, moved⟩, next)

/-- Burns shares, with `supply` of them outstanding, and gives the refunds. A choice of amounts is
refused: refunds are always in the ratio of the pool. -/
def withdraw (p : Pool) (balances : List Int) (burn supply now : Int) (choice : List Int) :
    Except Fault (Pair Nat × Pool) := do
  if !choice.isEmpty then throw .imbalancedWithdrawal
  let pools ← p.lift balances
  let amount ← liftShares burn
  let (refunds, capital) ← quoteWithdrawal p.state pools amount (← liftShares supply) now
  return (← p.lower refunds, p.withCapital capital)

end Pool

end ConcentratedPool
