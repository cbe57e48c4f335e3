import ConcentratedPool.Market.Scenario
import ConcentratedPool.Record.Field

/-!
# Settings of a simulation

How long a simulation runs, how its market moves and what its pool starts with. Settings are read
from a record in which every field has a default. Prices and profits stay texts here: who uses them
decides how exactly they are read.
-/

set_option autoImplicit false
set_option relaxedAutoImplicit false

namespace ConcentratedPool.Simulation

open Record

/-- The settings of a simulation. -/
structure Settings where
  /-- The number of steps. -/
  steps : Int
  /-- The time between two steps. -/
  stepSeconds : Int
  /-- The price at the start, in base per quote. -/
  initialPrice : String
  /-- The standard deviation of the log price over one step. -/
  volatility : Float
  /-- The expected growth of the log price over one step. -/
  drift : Float
  /-- The first deposit of the base asset in whole tokens. -/
  initialLiquidity : Int
  /-- The seed of the price path. -/
  seed : Option Int
  /-- The least profit for which the trader trades. -/
  minProfit : String
  /-- A relative move of the market that happens once; zero is none. -/
  shock : Float
  /-- The step of that move, the middle of the run if there is none. -/
  shockStep : Option Int

namespace Settings

/-- What is wrong with settings whose fields all fit. -/
def objection (s : Settings) : Option String :=
  match s.shockStep with
  | none => none
  | some step =>
    if s.steps < step then some s!"shock_step {step} is beyond the last step {s.steps}" else none

/-- Reads settings. -/
def read (fields : Fields) : Reading Settings :=
  (Settings.mk <$> optional fields "steps" 500 (intAbove 0)
    <*> optional fields "step_seconds" 600 (intAbove 0)
    <*> optional fields "initial_price" "1" anyText
    <*> optional fields "volatility" 0.01 (floatBetween 0.0 1.0)
    <*> optional fields "drift" 0.0 anyFloat
    <*> optional fields "initial_liquidity" 1000000 (intAbove 0)
    <*> optional fields "seed" none (nullable anyInt)
    <*> optional fields "min_profit" "0" anyText
    <*> optional fields "shock" 0.0 (floatAbove (-1.0))
    <*> optional fields "shock_step" none (nullable (intAtLeast 0))).check objection

/-- The fields that a scenario sets. A scenario without a shock takes the shock away. -/
def scenarioFields (scenario : Scenario) : Fields :=
  [("volatility", .float scenario.volatility), ("drift", .float scenario.drift),
    ("shock", .float (scenario.shock.getD 0.0))]

/-- The fields that can be given one by one. -/
def fieldNames : List String :=
  ["steps", "step_seconds", "initial_price", "volatility", "drift", "initial_liquidity", "seed",
    "shock", "shock_step"]

/-- The settings fields among given ones. -/
def ownFields (given : Fields) : Fields :=
  given.filter fun field ↦ fieldNames.contains field.1

end Settings

end ConcentratedPool.Simulation
