import ConcentratedPool.HalfPower
import ConcentratedPool.PoolParams
import ConcentratedPool.Promotion

/-!
# Prices and profit

`PriceState` holds the price scale of a pool, the oracle that it follows and the counters of its
profit. One operation changes it in three stages: `PriceState.observe` moves the oracle,
`PriceState.credit` measures the virtual price and credits its growth to the profit, and
`PriceState.repeg?` moves the price scale toward the oracle where that leaves the profit intact. A
stage that fails leaves the work of the stages before it in place (`PriceState.update`).
-/

set_option autoImplicit false
set_option relaxedAutoImplicit false

namespace ConcentratedPool

/-- The price scale, the oracle and the profit counters of a pool. Prices are in base per quote. -/
structure PriceState where
  /-- The moving average of the prices of trades. -/
  oracle : Decimal
  /-- The price of the last trade. -/
  last : Decimal
  /-- The price around which liquidity is concentrated. -/
  scale : Decimal
  /-- The time in seconds at which the oracle moved last. -/
  updated : Int
  /-- The growth of the virtual price since the first deposit, falls left out. -/
  profit : Decimal
  /-- The virtual capital at the last operation. -/
  capital : Decimal
  /-- The virtual capital per share at the last operation. -/
  virtualPrice : Decimal
deriving DecidableEq

namespace PriceState

/-- A price state at one price, without profit. -/
def start (price : Decimal) (now : Int) : PriceState :=
  ⟨price, price, price, now, .zero, .zero, .zero⟩

/-- The weight that the oracle keeps: halved in every half-life, and nothing without one. -/
def oracleWeight (s : PriceState) (halfTime now : Int) : Except Fault Decimal :=
  if halfTime = 0 then .ok .zero
  else do halfPower (← Decimal.ofRatio (now - s.updated) halfTime)

/-- Blends the price of the last trade into the oracle, once per time. -/
def moveOracle (s : PriceState) (halfTime now : Int) : Except Fault PriceState := do
  if now ≤ s.updated then return s
  let alpha ← s.oracleWeight halfTime now
  let oracle ← (← s.last * (← Decimal.one - alpha)) + (← s.oracle * alpha)
  return { s with oracle, updated := now }

/-- Moves the oracle, then takes note of the price of the trade at hand. -/
def observe (s : PriceState) (halfTime now : Int) (last : Decimal) : Except Fault PriceState := do
  return { ← s.moveOracle halfTime now with last }

/-- The profit after the virtual price has become `virtualPrice`. -/
def grownProfit (s : PriceState) (virtualPrice : Decimal) : Except Fault Decimal := do
  if s.virtualPrice.isZero then return s.profit
  return s.profit.max (← (← s.profit * virtualPrice) / s.virtualPrice)

/-- Measures the capital and the virtual price of the balances `xs`, and credits the profit. -/
def credit (s : PriceState) (shape : AmpGamma) (supply : Decimal) (xs : List Decimal) :
    Except Fault PriceState := do
  let capital ← virtualCapital (← shape.invariant xs) s.scale
  let virtualPrice ← capital / supply
  let profit ← s.grownProfit virtualPrice
  return { s with profit, capital, virtualPrice }

/-- The distance of the oracle from the price scale, relative to the scale. -/
def deviation (s : PriceState) : Except Fault Decimal :=
  s.oracle.distance s.scale / s.scale

/-- The part of the way from the scale to the oracle that one repeg may go: a tenth of the
deviation, and no less than the least step. -/
def scaleDelta (params : PoolParams) (deviation : Decimal) : Except Fault Decimal := do
  return params.minScaleDelta.max (← deviation / Decimal.ten)

/-- The price scale moved by `delta` out of `deviation` toward the oracle. -/
def movedScale (s : PriceState) (deviation delta : Decimal) : Except Fault Decimal := do
  (← (← s.scale * (← deviation - delta)) + (← s.oracle * delta)) / deviation

/-- The state after a repeg to the price scale `scale`, if the profit would stay at or above
`required`. The balances `xs` are in units of the old scale. -/
def tryScale (s : PriceState) (shape : AmpGamma) (supply : Decimal) (xs : Pair Decimal)
    (scale required : Decimal) : Except Fault (Option PriceState) := do
  let quote ← (← xs.quote * scale) / s.scale
  let capital ← virtualCapital (← shape.invariant [xs.base, quote]) scale
  let virtualPrice ← capital / supply
  let candidate ← (← s.profit * virtualPrice) / s.virtualPrice
  if candidate < required then return none
  return some { s with scale, capital, virtualPrice }

/-- Moves the price scale toward the oracle, if it is far enough away and the profit allows it. -/
def repeg? (s : PriceState) (params : PoolParams) (shape : AmpGamma) (supply : Decimal)
    (xs : Pair Decimal) : Except Fault (Option PriceState) := do
  let deviation ← s.deviation
  let delta ← scaleDelta params deviation
  if deviation < delta then return none
  let required ← s.profit * (← Decimal.one + params.repegThreshold)
  if s.virtualPrice.isZero then return none
  let scale ← s.movedScale deviation delta
  s.tryScale shape supply xs scale required

/-- The price state that one operation leaves behind, and whether it moved the price scale. The
balances `xs` are those after the operation, in units of equal value. -/
def update (s : PriceState) (params : PoolParams) (shape : AmpGamma) (now : Int)
    (supply : Decimal) (xs : List Decimal) (last : Decimal) : PriceState × Except Fault Bool :=
  if supply.isZero then (s, .error (.zeroAmount .supply))
  else match s.observe params.halfTime now last with
    | .error fault => (s, .error fault)
    | .ok observed =>
      match observed.credit shape supply xs, Pair.ofBalances xs with
      | .error fault, _ | _, .error fault => (observed, .error fault)
      | .ok credited, .ok xs =>
        match credited.repeg? params shape supply xs with
        | .error fault => (credited, .error fault)
        | .ok none => (credited, .ok false)
        | .ok (some moved) => (moved, .ok true)

end PriceState

/-- What changes in a pool: its curve parameters and its prices. -/
structure PoolState where
  promotion : Promotion
  price : PriceState
deriving DecidableEq

namespace PoolState

/-- The pool state that one operation leaves behind, and whether it moved the price scale. -/
def updatePrice (s : PoolState) (params : PoolParams) (now : Int) (supply : Decimal)
    (xs : List Decimal) (last : Decimal) : PoolState × Except Fault Bool :=
  let (price, outcome) := s.price.update params (s.promotion.effective now) now supply xs last
  ({ s with price }, outcome)

end PoolState

end ConcentratedPool
