import ConcentratedPool.Pool.Basic

/-!
# Swaps with a pool

`Pool.swap` executes a swap and gives the pool after it; `Pool.quote` prices the same swap and
leaves the pool alone. The balances are those before the offer.
-/

set_option autoImplicit false
set_option relaxedAutoImplicit false

namespace ConcentratedPool

/-- What a trader sets for a swap. -/
structure SwapTerms where
  /-- The expected price of the asked asset in units of the offered one. -/
  belief : Option Decimal
  /-- The largest spread that the trader accepts. -/
  maxSpread : Option Decimal
  /-- The part of the fee that leaves the pool. -/
  makerShare : Option Decimal
deriving DecidableEq

/-- A swap in whole token units of the asked asset. -/
structure TradeQuote where
  output : Nat
  spread : Nat
  commission : Nat
  makerFee : Nat
deriving DecidableEq, Repr

/-- What a swap came to. -/
structure TradeReceipt where
  side : Side
  amount : Int
  quote : TradeQuote
  /-- The price of the curve. -/
  lastPrice : Decimal
  /-- The price that the trader got. -/
  realPrice : Decimal
  /-- Whether the price scale moved. -/
  moved : Bool
deriving DecidableEq

namespace Pool

/-- A swap quote in token units, rounded down. -/
def lowerQuote (p : Pool) (ask : Side) (q : SwapQuote) : Except Fault TradeQuote := do
  let precision := p.precision ask
  return ⟨← q.output.toTokens precision, ← q.spread.toTokens precision,
    ← q.fee.toTokens precision, ← q.makerFee.toTokens precision⟩

/-- The lifted balances and the lifted amount of a swap that the pool can price. -/
def liftOffer (p : Pool) (balances : List Int) (side : Side) (amount : Int) :
    Except Fault (Pair Decimal × Decimal) := do
  let pools ← p.lift balances
  let offer ← Decimal.ofTokens amount (p.precision side)
  checkOffer pools offer
  return (pools, offer)

/-- Prices a swap of `amount` tokens. -/
def quote (p : Pool) (balances : List Int) (offer : Offer) (amount now : Int)
    (makerShare : Option Decimal) : Except Fault TradeQuote := do
  let side ← p.side offer
  let (pools, dec) ← p.liftOffer balances side amount
  let q ← quoteSwap p.state p.params pools dec side.other now (makerShare.getD .zero)
  p.lowerQuote side.other q

/-- The balances after a swap, in units of their own asset: the offer comes in, and the output and
the maker's fee go out, which must leave something. -/
def balancesAfter (pools : Pair Decimal) (side : Side) (offer : Decimal) (q : SwapQuote) :
    Except Fault (Pair Decimal) := do
  let increased ← pools.get side + offer
  let out ← q.output + q.makerFee
  if pools.get side.other ≤ out then throw (.shortage .uncoveredSwap)
  return (pools.set side increased).set side.other (← pools.get side.other - out)

/-- Swaps `amount` tokens of the offered asset, with `supply` shares outstanding. -/
def swap (p : Pool) (balances : List Int) (offer : Offer) (amount supply now : Int)
    (terms : SwapTerms) : Except Fault (TradeReceipt × Pool) := do
  let side ← p.side offer
  let (pools, dec) ← p.liftOffer balances side amount
  let q ← quoteSwap p.state p.params pools dec side.other now (terms.makerShare.getD .zero)
  let after ← balancesAfter pools side dec q
  checkSpread terms.belief terms.maxSpread dec q.output q.spread
  let (lastPrice, realPrice) ← q.prices dec side
  let xs ← scaledBalances p.state.price.scale after
  let (settled, moved) ← p.settlePrice now (← liftShares supply) xs lastPrice
  let next ← settled.accumulate now realPrice
  let lowered ← p.lowerQuote side.other q
  return (⟨side, amount, lowered, lastPrice, realPrice, moved⟩, next)

end Pool

end ConcentratedPool
