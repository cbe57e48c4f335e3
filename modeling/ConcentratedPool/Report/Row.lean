import ConcentratedPool.Decimal.OfValue
import ConcentratedPool.Simulation.Outcome

/-!
# Rows of a report

A `Row` is a snapshot in floats and whole tokens, as it is tabulated and evaluated.
-/

set_option autoImplicit false
set_option relaxedAutoImplicit false

namespace ConcentratedPool

/-- The float nearest to a decimal. -/
def Decimal.toFloat (a : Decimal) : Float := (Number.unsigned a).toFloat

/-- A snapshot in floats. -/
structure Row where
  step : Nat
  time : Int
  marketPrice : Float
  oraclePrice : Float
  priceScale : Float
  lastPrice : Float
  profit : Float
  virtualPrice : Float
  sharePrice : Float
  /-- The balances in whole tokens. -/
  balances : List Float
  traded : Bool
  /-- The fee of the trade in whole tokens of the asset it was paid in. -/
  feePaid : Float
  /-- Whether the trade moved the price scale. -/
  repegged : Bool

namespace Simulation

/-- The fee of a trade in whole tokens. -/
def feePaid (s : Simulation) (trade : Option TradeReceipt) : Except Fault Float :=
  match trade with
  | none => .ok 0.0
  | some t => Market.wholeTokens t.quote.commission (s.ledger.pool.precision t.side.other)

/-- A snapshot as a row. -/
def row (s : Simulation) (snapshot : Snapshot) : Except Fault Row := do
  let precisions := s.ledger.pool.assets.toList.map Asset.precision
  return {
    step := snapshot.step
    time := snapshot.time
    marketPrice := snapshot.marketPrice
    oraclePrice := snapshot.price.oracle.toFloat
    priceScale := snapshot.price.scale.toFloat
    lastPrice := snapshot.price.last.toFloat
    profit := snapshot.price.profit.toFloat
    virtualPrice := snapshot.price.virtualPrice.toFloat
    sharePrice := snapshot.sharePrice.toFloat
    balances := ← (snapshot.balances.zip precisions).mapM fun b ↦ Market.wholeTokens b.1 b.2
    traded := snapshot.trade.isSome
    feePaid := ← s.feePaid snapshot.trade
    repegged := snapshot.trade.any TradeReceipt.moved }

/-- All snapshots as rows. -/
def rows (s : Simulation) : Except Fault (List Row) := s.snapshots.mapM s.row

end Simulation

end ConcentratedPool
