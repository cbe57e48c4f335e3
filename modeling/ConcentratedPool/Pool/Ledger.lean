import ConcentratedPool.Pool.Funding
import ConcentratedPool.Pool.Governance
import ConcentratedPool.Pool.Query
import ConcentratedPool.Pool.Trade

/-!
# Ledgers

A `Ledger` is a pool together with the balances and the shares that its caller keeps. A `Call` is
one operation on it; `Ledger.apply` carries it out and books what comes in and goes out. A call
that is refused leaves the ledger as it was (`Ledger.step`), and `Ledger.run` carries out many.
-/

set_option autoImplicit false
set_option relaxedAutoImplicit false

namespace ConcentratedPool

/-- A pool with its balances and the number of its shares. -/
structure Ledger where
  pool : Pool
  balances : List Int
  supply : Int
deriving DecidableEq

/-- The operations that change a pool. -/
inductive Call where
  | deposit (amounts : List Int) (now : Int)
  | swap (offer : Offer) (amount now : Int) (terms : SwapTerms)
  | withdraw (burn now : Int) (choice : List Int)
  | promote (request : PromotionRequest) (now : Int)
  | stopPromotion (now : Int)
  | updateParams (update : ParamUpdate)
  | accumulate (now : Int) (price : Decimal)

/-- What a call came to. -/
inductive Receipt where
  | deposit (receipt : DepositReceipt)
  | swap (receipt : TradeReceipt)
  | refunds (amounts : Pair Nat)
  | done
deriving DecidableEq

namespace Ledger

/-- A new pool without balances and shares. -/
def ofPool (pool : Pool) : Ledger := ⟨pool, [0, 0], 0⟩

/-- Adds an amount to the balance on one side. -/
def addTo (balances : List Int) (side : Side) (amount : Int) : List Int :=
  balances.modify side.index (· + amount)

/-- Deposits and books it: the amounts come in, and the minted and the locked shares are
outstanding. -/
def deposit (l : Ledger) (amounts : List Int) (now : Int) :
    Except Fault (DepositReceipt × Ledger) := do
  let (receipt, pool) ← l.pool.deposit l.balances amounts l.supply now
  let balances := l.balances.zipWith (· + ·) amounts
  return (receipt, ⟨pool, balances, l.supply + receipt.minted + receipt.locked⟩)

/-- Swaps and books it: the offer comes in, and the output and the maker's fee go out. -/
def swap (l : Ledger) (offer : Offer) (amount now : Int) (terms : SwapTerms) :
    Except Fault (TradeReceipt × Ledger) := do
  let (receipt, pool) ← l.pool.swap l.balances offer amount l.supply now terms
  let paid : Int := receipt.quote.output + receipt.quote.makerFee
  let balances := addTo (addTo l.balances receipt.side amount) receipt.side.other (-paid)
  return (receipt, ⟨pool, balances, l.supply⟩)

/-- Withdraws and books it: the refunds go out and the shares are gone. -/
def withdraw (l : Ledger) (burn now : Int) (choice : List Int) :
    Except Fault (Pair Nat × Ledger) := do
  let (refunds, pool) ← l.pool.withdraw l.balances burn l.supply now choice
  let balances := addTo (addTo l.balances .base (-refunds.base)) .quote (-refunds.quote)
  return (refunds, ⟨pool, balances, l.supply - burn⟩)

/-- Carries out a call. -/
def apply (l : Ledger) : Call → Except Fault (Receipt × Ledger)
  | .deposit amounts now => do
    let (receipt, next) ← l.deposit amounts now
    return (.deposit receipt, next)
  | .swap offer amount now terms => do
    let (receipt, next) ← l.swap offer amount now terms
    return (.swap receipt, next)
  | .withdraw burn now choice => do
    let (refunds, next) ← l.withdraw burn now choice
    return (.refunds refunds, next)
  | .promote request now => do
    return (.done, { l with pool := ← l.pool.promote request now })
  | .stopPromotion now => do
    return (.done, { l with pool := ← l.pool.stopPromotion now })
  | .updateParams update => do
    return (.done, { l with pool := ← l.pool.updateParams update })
  | .accumulate now price => do
    return (.done, { l with pool := ← l.pool.accumulate now price })

/-- The ledger after a call, which is the same ledger if the call is refused. -/
def step (l : Ledger) (call : Call) : Ledger :=
  match l.apply call with
  | .ok (_, next) => next
  | .error _ => l

/-- The ledger after many calls. -/
def run (l : Ledger) (calls : List Call) : Ledger := calls.foldl step l

end Ledger

end ConcentratedPool
