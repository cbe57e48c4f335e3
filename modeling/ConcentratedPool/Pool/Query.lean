import ConcentratedPool.Pool.Basic

/-!
# Questions to a pool

Queries read a pool and change nothing.
-/

set_option autoImplicit false
set_option relaxedAutoImplicit false

namespace ConcentratedPool

/-- The parameters and prices of a pool at a time. -/
structure PoolSummary where
  shape : AmpGamma
  params : PoolParams
  scale : Decimal
  oracle : Decimal
  last : Decimal
  profit : Decimal
  isPromoting : Bool
  accumulated : Int
deriving DecidableEq

namespace Pool

/-- The denominations with their balances. -/
def holdings (p : Pool) (balances : List Int) : List (String × Int) :=
  (p.assets.toList.map Asset.denom).zip balances

/-- What `amount` of `supply` shares stand for in token units, rounded down. -/
def shareInTokens (p : Pool) (balances : List Int) (amount supply : Int) :
    Except Fault (Pair Nat) := do
  let pools ← p.lift balances
  let amount ← liftShares amount
  p.lower (← shareOfPool pools amount (← liftShares supply))

/-- The accumulated prices: the offered and the asked denomination with the value. -/
def cumulativePrices (p : Pool) : List (String × String × Nat) :=
  let base := p.assets.base.denom
  let quote := p.assets.quote.denom
  [(base, quote, p.cumulative.base), (quote, base, p.cumulative.quote)]

/-- The invariant of the balances at a time. -/
def invariant (p : Pool) (balances : List Int) (now : Int) : Except Fault Decimal := do
  let x ← scaledBalances p.state.price.scale (← p.lift balances)
  (p.state.promotion.effective now).invariant x.toList

/-- The value of a share in base units: `2 · virtual price · √oracle`. -/
def sharePrice (p : Pool) : Except Fault Decimal := do
  (← p.state.price.virtualPrice * Decimal.two) * (← p.state.price.oracle.sqrt)

/-- The parameters and prices at a time. -/
def summary (p : Pool) (now : Int) : PoolSummary where
  shape := p.state.promotion.effective now
  params := p.params
  scale := p.state.price.scale
  oracle := p.state.price.oracle
  last := p.state.price.last
  profit := p.state.price.profit
  isPromoting := p.state.promotion.isActive now
  accumulated := p.accumulated

end Pool

end ConcentratedPool
