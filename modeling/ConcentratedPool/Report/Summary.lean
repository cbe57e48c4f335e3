import ConcentratedPool.Numeric.Binary64
import ConcentratedPool.Report.Row
import ConcentratedPool.Report.Statistics
import ConcentratedPool.Text.Padding

/-!
# Summaries of a simulation

A `Summary` has three sections of named figures: how closely the pool followed the market, what the
provider of the liquidity earned, and what the trader did. The first two are empty without rows.
`Summary.render` is its printed form.
-/

set_option autoImplicit false
set_option relaxedAutoImplicit false

namespace ConcentratedPool

/-- A figure of a report. -/
inductive Figure where
  | count (n : Int)
  | measure (x : Float)

/-- Named figures in the order in which they are printed. -/
abbrev Figures : Type := List (String × Figure)

/-- The figures of a report by section. -/
structure Summary where
  tracking : Figures
  liquidity : Figures
  arbitrage : Figures

/-! ### Evaluation -/

/-- The distance of a price from the market price, relative to the market price. -/
def Row.errorOf (row : Row) (price : Float) : Float := (price / row.marketPrice - 1.0).abs

namespace Summary

/-- How closely the price scale and the oracle followed the market. -/
def trackingOf (rows : List Row) : Figures :=
  let scaleErrors := rows.map fun row ↦ row.errorOf row.priceScale
  let oracleErrors := rows.map fun row ↦ row.errorOf row.oraclePrice
  if rows.isEmpty then []
  else
    [("mean_tracking_error", .measure (Statistics.mean scaleErrors)),
      ("max_tracking_error", .measure (Statistics.maximum scaleErrors)),
      ("mean_oracle_error", .measure (Statistics.mean oracleErrors)),
      ("repeg_count", .count (rows.countP Row.repegged))]

/-- The deviation of the log returns of the positive share prices. -/
def volatilityOf (prices : List Float) : Float :=
  Statistics.deviation (Statistics.differences ((prices.filter (0.0 < ·)).map Float.log))

/-- The return of withdrawing over holding; zero where there was nothing to hold. -/
def gainOver (withdrawValue holdValue : Float) : Float :=
  if 0.0 < holdValue then withdrawValue / holdValue - 1.0 else 0.0

/-- What the provider of the liquidity earned. -/
def liquidityOf (rows : List Row) (withdrawValue holdValue : Float) : Figures :=
  match rows.getLast? with
  | none => []
  | some last =>
    [("final_xcp_profit", .measure last.profit),
      ("final_virtual_price", .measure last.virtualPrice),
      ("total_fees_paid", .measure (Statistics.sum (rows.map Row.feePaid))),
      ("lp_vs_hodl", .measure (gainOver withdrawValue holdValue)),
      ("lp_price_volatility", .measure (volatilityOf (rows.map Row.sharePrice)))]

/-- What the trader of a simulation did. -/
def arbitrageOf (s : Simulation) : Figures :=
  [("trades_executed", .count s.trades), ("total_profit", .measure s.profit),
    ("failed_trades", .count s.failedTrades)]

/-- The summary of rows, with the figures of the trader as they are. -/
def ofRows (rows : List Row) (withdrawValue holdValue : Float) (arbitrage : Figures) : Summary :=
  ⟨trackingOf rows, liquidityOf rows withdrawValue holdValue, arbitrage⟩

/-- The summary of a simulation with its outcome. -/
def ofSimulation (s : Simulation) (outcome : Outcome) : Except Fault Summary := do
  return ofRows (← s.rows) outcome.withdrawValue outcome.holdValue (arbitrageOf s)

end Summary

/-! ### Printing -/

/-- A figure in print: measures have six places. -/
def Figure.render : Figure → String
  | count n => toString n
  | measure x => Numeric.fixedPlaces 6 x

namespace Summary

/-- A section under its title. -/
def renderSection (title : String) (figures : Figures) : String :=
  let line (figure : String × Figure) : String :=
    "  " ++ Text.padRight 24 figure.1 ++ " " ++ figure.2.render ++ "\n"
  "\n" ++ title ++ "\n" ++ String.join (figures.map line)

/-- A summary in print. -/
def render (s : Summary) : String :=
  let rule := String.ofList (List.replicate 60 '=') ++ "\n"
  "\n" ++ rule ++ "POOL SIMULATION SUMMARY\n" ++ rule ++ renderSection "TRACKING" s.tracking ++
    renderSection "LIQUIDITY" s.liquidity ++ renderSection "ARBITRAGE" s.arbitrage

end Summary

end ConcentratedPool
