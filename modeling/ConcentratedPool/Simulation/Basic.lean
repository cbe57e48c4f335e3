import ConcentratedPool.Market.Arbitrage
import ConcentratedPool.Market.PricePath
import ConcentratedPool.Pool.Ledger
import ConcentratedPool.Simulation.Setup

/-!
# Simulations

A `Simulation` holds one pool, the market that it trades against and what has happened so far. Its
records keep exact amounts and decimals; only the market itself is in floats. `Simulation.create`
makes one from a set-up.
-/

set_option autoImplicit false
set_option relaxedAutoImplicit false

namespace ConcentratedPool

/-- What a pool looked like at one step. -/
structure Snapshot where
  /-- The number of the step within its run. -/
  step : Nat
  time : Int
  marketPrice : Float
  price : PriceState
  /-- The value of a share in base units. -/
  sharePrice : Decimal
  balances : List Int
  /-- The trade of the step, if there was one. -/
  trade : Option TradeReceipt

/-- A pool in a simulated market. -/
structure Simulation where
  settings : Simulation.Settings
  arbitrageur : Arbitrageur
  /-- The part of the fees that leaves the pool. -/
  makerShare : Decimal
  /-- The market price at every step. -/
  path : List Float
  now : Int
  ledger : Ledger
  /-- The shares of the provider of the liquidity. -/
  providerShare : Nat
  /-- What the provider put in. -/
  initialDeposit : Pair Int
  snapshots : List Snapshot
  /-- The fees that left the pool, by the asset they were paid in. -/
  makerFees : Pair Nat
  /-- How often the price scale moved. -/
  repegs : Nat
  /-- How many trades were carried out. -/
  trades : Nat
  /-- The sum of the earnings that these trades were made for. -/
  profit : Float
  /-- How many trades were refused because of their spread. -/
  failedTrades : Nat

namespace Simulation

/-- Reads a float. -/
def readFloat (text : String) : Except Fault Float :=
  match Numeric.floatOfText? text with
  | some x => .ok x
  | none => .error .unreadableFloat

/-- The market of the settings: a random walk, and the shock if there is one. -/
def marketPath (s : Settings) (source : NormalSource) : Except Fault (List Float) := do
  let initial ← readFloat s.initialPrice
  let path ← PricePath.generate ⟨s.volatility, s.drift⟩ initial s.steps s.seed source
  if s.shock == 0.0 then return path
  return PricePath.applyShock path (s.shockStep.getD (s.steps / 2)) s.shock

/-- Reads the maker's share of the fees. -/
def readShare : Value → Except Fault Decimal
  | .text text => Decimal.ofText text
  | _ => .error .notText

/-- A simulation in which nothing has happened, along a path with random numbers from `source`. -/
def create (setup : Setup) (source : NormalSource) : Except Fault Simulation := do
  let params ← setup.poolParams
  let asset (a : Asset) : AssetSource := .described (.text a.denom) (.integer a.precision)
  let pool ← Pool.create [asset setup.base, asset setup.quote] params setup.start "uLP"
  let makerShare ← readShare setup.makerShare
  let minProfit ← readFloat setup.settings.minProfit
  let path ← marketPath setup.settings source
  return {
    settings := setup.settings
    arbitrageur := ⟨minProfit, 0.5, 40⟩
    makerShare, path
    now := setup.start
    ledger := .ofPool pool
    providerShare := 0
    initialDeposit := ⟨0, 0⟩
    snapshots := []
    makerFees := ⟨0, 0⟩
    repegs := 0
    trades := 0
    profit := 0.0
    failedTrades := 0 }

end Simulation

end ConcentratedPool
