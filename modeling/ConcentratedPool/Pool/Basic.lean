import ConcentratedPool.Liquidity
import ConcentratedPool.Pool.Asset
import ConcentratedPool.Pool.Params

/-!
# Pools

A `Pool` is all that persists between two calls, except for the balances and the shares, which the
caller keeps. `Pool.create` makes a pool from its assets and parameters. Token amounts cross the
border of a pool as whole numbers in the precision of their asset.
-/

set_option autoImplicit false
set_option relaxedAutoImplicit false

namespace ConcentratedPool

/-- A pool of two assets. -/
structure Pool where
  assets : Pair Asset
  params : PoolParams
  state : PoolState
  /-- The time up to which prices are accumulated. -/
  accumulated : Int
  /-- The accumulated price of each asset in units of the other: under `base`, that of swaps which
  offer the base asset. -/
  cumulative : Pair Nat
  liquidityToken : String
deriving DecidableEq

/-- What a trader offers: the asset at a position, or that of a denomination. -/
inductive Offer where
  | index (position : Int)
  | denom (name : String)
deriving DecidableEq, Repr

/-- A list of texts, quoted. -/
def showTexts (texts : List String) : String :=
  "[" ++ ", ".intercalate (texts.map Text.quote) ++ "]"

/-- A list of whole numbers. -/
def showInts (ints : List Int) : String :=
  "[" ++ ", ".intercalate (ints.map toString) ++ "]"

namespace Pool

/-! ### Creation -/

/-- The two different assets of a pool. -/
def checkAssets (assets : List Asset) : Except Fault (Pair Asset) :=
  match assets with
  | [base, quote] =>
    if base.denom = quote.denom then
      .error (.parameter "assets" (showTexts [base.denom, quote.denom]) "distinct assets")
    else .ok ⟨base, quote⟩
  | _ => .error (.parameter "assets" (showTexts (assets.map Asset.denom)) "exactly two assets")

/-- Makes a pool. Its prices start at the price scale and its curve parameters at rest. -/
def create (sources : List AssetSource) (p : InitialParams) (now : Int) (token : String) :
    Except Fault Pool := do
  let assets ← checkAssets (← sources.mapM Asset.ofSource)
  if p.priceScale.isZero then throw (.parameter "price_scale" p.priceScale.render "> 0")
  let params ← PoolParams.unset.update? p.toUpdate
  let shape ← AmpGamma.new p.amp p.gamma
  if token.isEmpty then throw .missingToken
  return {
    assets, params
    state := ⟨.rest shape now, .start p.priceScale now⟩
    accumulated := now
    cumulative := ⟨0, 0⟩
    liquidityToken := token }

/-! ### Amounts -/

/-- The precision of the asset on one side. -/
def precision (p : Pool) (side : Side) : Int := (p.assets.get side).precision

/-- The side of an offer. -/
def side (p : Pool) : Offer → Except Fault Side
  | .index position =>
    match Side.ofIndex? position with
    | some side => .ok side
    | none => .error (.offerIndex position)
  | .denom name =>
    if p.assets.base.denom = name then .ok .base
    else if p.assets.quote.denom = name then .ok .quote
    else .error (.foreignAsset name)

/-- Token amounts of both assets as decimals. -/
def lift (p : Pool) (amounts : List Int) : Except Fault (Pair Decimal) := do
  match Pair.ofList? amounts with
  | none => throw (.parameter "amounts" (showInts amounts) "exactly 2 values")
  | some pair =>
    if pair.any (· < 0) then throw (.parameter "amounts" (showInts amounts) "non-negative")
    return ⟨← Decimal.ofTokens pair.base (p.precision .base),
      ← Decimal.ofTokens pair.quote (p.precision .quote)⟩

/-- Decimals as token amounts of both assets, rounded down. -/
def lower (p : Pool) (amounts : Pair Decimal) : Except Fault (Pair Nat) := do
  return ⟨← amounts.base.toTokens (p.precision .base),
    ← amounts.quote.toTokens (p.precision .quote)⟩

/-- An amount of shares as a decimal. -/
def liftShares (amount : Int) : Except Fault Decimal :=
  if amount < 0 then .error (.parameter "share amount" (toString amount) "non-negative")
  else Decimal.ofTokens amount Limits.sharePrecision

/-! ### Prices -/

/-- Adds the price of the time since the last accumulation for both directions. The price is in base
per quote; swaps that offer the base asset see its reciprocal. -/
def accumulate (p : Pool) (now : Int) (price : Decimal) : Except Fault Pool := do
  if now ≤ p.accumulated then return p
  let elapsed := (now - p.accumulated).toNat
  let add (value : Nat) (price : Decimal) : Except Fault Nat := do
    return (value + elapsed * (← price.toTokens Limits.cumulativePrecision)) %
      Limits.cumulativeModulus
  let base ← add p.cumulative.base (← price.inv)
  let quote ← add p.cumulative.quote price
  return { p with accumulated := now, cumulative := ⟨base, quote⟩ }

/-- The pool after an operation that left the balances `xs`, in units of equal value, and traded at
the price `last`, and whether the price scale moved. Nothing is left of a price update that fails. -/
def settlePrice (p : Pool) (now : Int) (supply : Decimal) (xs : Pair Decimal) (last : Decimal) :
    Except Fault (Pool × Bool) := do
  let (state, outcome) := p.state.updatePrice p.params now supply xs.toList last
  return ({ p with state }, ← outcome)

/-- The pool with another virtual capital. -/
def withCapital (p : Pool) (capital : Decimal) : Pool :=
  { p with state.price.capital := capital }

end Pool

end ConcentratedPool
