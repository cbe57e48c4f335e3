import ConcentratedPool.Swap

/-!
# Deposits and withdrawals

`quoteDeposit` prices a deposit in shares of the pool, `quoteWithdrawal` a withdrawal in both
assets. A deposit into a pool with shares is paid by the growth of the invariant, less a fee on the
part of it that is not in the ratio of the pool; a withdrawal takes the same part of both balances.
-/

set_option autoImplicit false
set_option relaxedAutoImplicit false

namespace ConcentratedPool

/-- The outcome of a deposit. -/
structure DepositQuote where
  /-- The shares that the depositor receives. -/
  share : Decimal
  /-- The invariant after the deposit. -/
  invariant : Decimal
  /-- The virtual capital after the deposit. -/
  capital : Decimal
  /-- The fee rate on the shares. -/
  fee : Decimal
  /-- The balances after the deposit, in units of equal value. -/
  balances : Pair Decimal
  /-- The price of the trade that an uneven deposit amounts to. -/
  lastPrice : Option Decimal
  /-- Whether the pool had no shares before. -/
  isFirst : Bool
deriving DecidableEq

/-- The shares of the first depositor: the virtual capital less what stays locked. -/
def firstShare (capital : Decimal) : Except Fault Decimal := do
  let minted ← capital.toTokens Limits.sharePrecision
  if minted ≤ Limits.lockedShares then
    throw (.minimumLiquidity minted Limits.lockedShares)
  Decimal.ofTokens (minted - Limits.lockedShares : Nat) Limits.sharePrecision

/-- The price of the trade that a deposit amounts to beside its part in the ratio of the pool, if
that trade is large enough on both sides to have a price. -/
def impliedPrice (scale : Decimal) (deposits balances : Pair Decimal) (supply share : Decimal) :
    Except Fault (Option Decimal) := do
  let ratio ← share / (← supply + share)
  let base ← balances.base * ratio
  let quote ← (← balances.quote * ratio) / scale
  let baseDiff := deposits.base.distance base
  let quoteDiff := deposits.quote.distance quote
  if Limits.tolerance < baseDiff then
    if Limits.tolerance < (← quoteDiff * scale) then
      return some (← baseDiff / quoteDiff)
  return none

/-- Prices a deposit. The balances `pools` are those before it, and `supply` are the shares before
it. -/
def quoteDeposit (state : PoolState) (params : PoolParams) (pools deposits : Pair Decimal)
    (supply : Decimal) (now : Int) : Except Fault DepositQuote := do
  if deposits.any Decimal.isZero then throw (.zeroAmount .deposit)
  let scale := state.price.scale
  let shape := state.promotion.effective now
  let base ← pools.base + deposits.base
  let quote ← (← pools.quote + deposits.quote) * scale
  let balances : Pair Decimal := ⟨base, quote⟩
  let invariant ← shape.invariant balances.toList
  let capital ← virtualCapital invariant scale
  if supply.isZero then
    return ⟨← firstShare capital, invariant, capital, .zero, balances, none, true⟩
  if pools.any Decimal.isZero then throw (.shortage .sharesWithoutBalance)
  let oldBalances ← scaledBalances scale pools
  let oldInvariant ← shape.invariant oldBalances.toList
  let grown ← (← supply * invariant) / oldInvariant
  let fee ← Fee.depositRate (← scaledBalances scale deposits) oldBalances params.fees
  let share ← grown.monus supply * (← Decimal.one - fee)
  if (← share.toTokens Limits.sharePrecision) = 0 then throw (.zeroAmount .mintedShare)
  let lastPrice ← impliedPrice scale deposits balances supply share
  return ⟨share, invariant, capital, fee, balances, lastPrice, false⟩

/-- The part of a pool that `amount` of its `supply` shares stand for; none where there are no
shares. -/
def shareRatio (amount supply : Decimal) : Except Fault Decimal :=
  if supply.isZero then .ok .zero else amount / supply

/-- What `amount` shares stand for in each of the balances `pools`. -/
def shareOfBalances (pools : List Decimal) (amount supply : Decimal) :
    Except Fault (List Decimal) := do
  let ratio ← shareRatio amount supply
  pools.mapM fun balance ↦ balance * ratio

/-- What `amount` shares stand for in both assets of a pool. -/
def shareOfPool (pools : Pair Decimal) (amount supply : Decimal) :
    Except Fault (Pair Decimal) := do
  let ratio ← shareRatio amount supply
  return ⟨← pools.base * ratio, ← pools.quote * ratio⟩

/-- Prices a withdrawal of `amount` shares: the refunds and the virtual capital that stays. -/
def quoteWithdrawal (state : PoolState) (pools : Pair Decimal) (amount supply : Decimal)
    (now : Int) : Except Fault (Pair Decimal × Decimal) := do
  if amount.isZero then throw (.zeroAmount .withdrawal)
  if supply < amount then throw (.shortage (.burnExceedsSupply amount supply))
  let refunds ← shareOfPool pools amount supply
  let scale := state.price.scale
  let base ← pools.base - refunds.base
  let quote ← (← pools.quote - refunds.quote) * scale
  let x : Pair Decimal := ⟨base, quote⟩
  if x.any Decimal.isZero then throw (.shortage .emptiedPool)
  let d ← (state.promotion.effective now).invariant x.toList
  return (refunds, ← virtualCapital d scale)

end ConcentratedPool
