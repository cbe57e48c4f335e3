import ConcentratedPool.Pool.Asset
import ConcentratedPool.Pool.Params
import ConcentratedPool.Simulation.Settings

/-!
# Set-ups of simulations

A `Setup` is all that a simulation starts from: the two assets, the parameters of the pool, the
settings and the maker's share of the fees. `Setup.ofFields` makes one from what a user gives: a
scenario first, single settings on top of it.
-/

set_option autoImplicit false
set_option relaxedAutoImplicit false

namespace ConcentratedPool.Simulation

open Record

/-- What a simulation starts from. -/
structure Setup where
  base : Asset
  quote : Asset
  /-- The fields of the pool parameters. The price scale is that of the settings in any case. -/
  poolFields : Fields
  settings : Settings
  /-- The part of the fees that leaves the pool, which has to be read yet. -/
  makerShare : Value
  /-- The time at the start. -/
  start : Int

namespace Setup

/-- The pool parameters of a set-up that changes none of them. -/
def defaultPoolFields : Fields :=
  [("amp", .text "40"), ("gamma", .text "0.000145"), ("mid_fee", .text "0.0026"),
    ("out_fee", .text "0.0045"), ("fee_gamma", .text "0.00023"),
    ("repeg_profit_threshold", .text "0.000002"), ("min_price_scale_delta", .text "0.000146"),
    ("price_scale", .text "1"), ("ma_half_time", .integer 600)]

/-- The set-up for settings, with nothing else changed. -/
def ofSettings (settings : Settings) : Setup where
  base := ⟨"uusd", 6⟩
  quote := ⟨"uluna", 6⟩
  poolFields := defaultPoolFields
  settings := settings
  makerShare := .text "0"
  start := 1700000000

/-- The parameters of the pool, whose price scale is the price at the start. -/
def poolParams (s : Setup) : Except Fault InitialParams :=
  (InitialParams.read
    (s.poolFields ++ [("price_scale", .text s.settings.initialPrice)])).toExcept

/-- The scenario that is given, if any. -/
def scenario? (given : Fields) : Except Fault (Option Scenario) :=
  match Value.field? given "scenario" with
  | some value => if value.isVoid then .ok none else some <$> Scenario.ofValue value
  | none => .ok none

/-- The set-up for what is given; null is not given. -/
def ofFields (given : Fields) : Except Fault Setup := do
  let given := given.filter fun field ↦ !field.2.isNull
  let preset := ((← scenario? given).map Settings.scenarioFields).getD []
  let settings ← (Settings.read (preset ++ Settings.ownFields given)).toExcept
  let setup := ofSettings settings
  return { setup with
    makerShare := (Value.field? given "maker_fee_share").getD setup.makerShare }

end Setup

end ConcentratedPool.Simulation
