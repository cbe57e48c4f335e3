import ConcentratedPool.PriceState

/-!
# Swaps on the concentrated curve

`quoteSwap` prices a swap: what the curve gives out, the fee on it and the spread against the price
scale. `checkSpread` compares a swap with what the trader accepts. Amounts are in units of their own
asset.
-/

set_option autoImplicit false
set_option relaxedAutoImplicit false

namespace ConcentratedPool

/-- The outcome of a swap, in units of the asset that is asked for. -/
structure SwapQuote where
  /-- What the trader receives. -/
  output : Decimal
  /-- What the trader loses against the price scale, before the fee. -/
  spread : Decimal
  /-- The part of the fee that leaves the pool. -/
  makerFee : Decimal
  /-- The whole fee. -/
  fee : Decimal
  /-- The fee rate. -/
  rate : Decimal
deriving DecidableEq

namespace SwapQuote

/-- The price of the curve before the fee and the price that the trader gets, both in base per
quote, for `offer` units of the asset on the side `side`. -/
def prices (q : SwapQuote) (offer : Decimal) (side : Side) : Except Fault (Decimal × Decimal) := do
  let curve ← q.output + q.fee
  match side with
  | .base => return (← offer / curve, ← offer / q.output)
  | .quote => return (← curve / offer, ← q.output / offer)

end SwapQuote

/-- Refuses a swap of nothing, and a swap with a pool that lacks one asset. -/
def checkOffer (pools : Pair Decimal) (offer : Decimal) : Except Fault Unit := do
  if offer.isZero then throw (.zeroAmount .swap)
  if pools.any Decimal.isZero then throw (.shortage .emptySide)

/-! ### Units of equal value -/

/-- An amount of one asset in units of equal value: base units at the price scale. -/
def toValue (scale : Decimal) (side : Side) (amount : Decimal) : Except Fault Decimal :=
  match side with
  | .base => .ok amount
  | .quote => amount * scale

/-- An amount in units of equal value as an amount of one asset. -/
def ofValue (scale : Decimal) (side : Side) (amount : Decimal) : Except Fault Decimal :=
  match side with
  | .base => .ok amount
  | .quote => amount / scale

/-- The balances in units of equal value. -/
def scaledBalances (scale : Decimal) (pools : Pair Decimal) : Except Fault (Pair Decimal) := do
  return ⟨pools.base, ← toValue scale .quote pools.quote⟩

/-- What an amount of the asset opposite to `ask` is worth at the price scale. -/
def idealOutput (scale : Decimal) (ask : Side) (offer : Decimal) : Except Fault Decimal :=
  match ask with
  | .base => toValue scale .quote offer
  | .quote => ofValue scale .quote offer

/-! ### The quote -/

/-- What the curve gives out before any fee for an offer of the asset opposite to `ask`, and the
balances that it leaves, both in units of equal value. -/
def curveOutput (shape : AmpGamma) (scale : Decimal) (pools : Pair Decimal) (offer : Decimal)
    (ask : Side) : Except Fault (Decimal × Pair Decimal) := do
  let x ← scaledBalances scale pools
  let d ← shape.invariant x.toList
  let x := x.set ask.other (← x.get ask.other + (← toValue scale ask.other offer))
  let y ← shape.balance x.toList d ask
  if x.get ask ≤ y then throw (.shortage .noOutput)
  return (← x.get ask - y, x.set ask y)

/-- Prices a swap of `offer` units of the asset opposite to `ask`. The balances `pools` are those
before the offer. The fee is that of the balances which the swap leaves. -/
def quoteSwap (state : PoolState) (params : PoolParams) (pools : Pair Decimal) (offer : Decimal)
    (ask : Side) (now : Int) (makerShare : Decimal) : Except Fault SwapQuote := do
  let scale := state.price.scale
  let (value, left) ← curveOutput (state.promotion.effective now) scale pools offer ask
  let gross ← ofValue scale ask value
  let ideal ← idealOutput scale ask offer
  let rate ← Fee.rate left params.fees
  let fee ← gross * rate
  let output ← gross - fee
  if output.isZero then throw (.shortage .noOutputAfterFees)
  let (makerFee, _) ← Fee.split fee makerShare
  return ⟨output, ideal.monus gross, makerFee, fee, rate⟩

/-! ### Slippage -/

/-- Refuses a swap that is worse than the trader accepts. With a belief, the price of the asked asset
in units of the offer that the trader expects, the output is compared with what that price gives;
without one, the spread is compared with the output before the spread. -/
def checkSpread (belief limit : Option Decimal) (offer output spread : Decimal) :
    Except Fault Unit := do
  let limit := limit.getD Limits.defaultSlippage
  if Limits.maxSlippage < limit then
    throw (.parameter "max_spread" limit.render s!"<= {Limits.maxSlippage.render}")
  match belief with
  | some belief =>
    if belief.isZero then throw (.parameter "belief_price" belief.render "> 0")
    let expected ← offer / belief
    let loss := expected.monus output
    if output < expected then
      if limit < (← loss / expected) then throw (.spread loss limit (some expected))
  | none =>
    if limit < (← spread / (← output + spread)) then throw (.spread spread limit none)

end ConcentratedPool
