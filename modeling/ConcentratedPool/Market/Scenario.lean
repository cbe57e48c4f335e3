import ConcentratedPool.Fault
import ConcentratedPool.Record.Value
import ConcentratedPool.Text.UpperCase

/-!
# Market scenarios

A `Scenario` is a preset of how a market moves. `Scenario.find` looks one up by its name, in which
small and capital letters are not told apart.
-/

set_option autoImplicit false
set_option relaxedAutoImplicit false

namespace ConcentratedPool

/-- A preset market. -/
structure Scenario where
  name : String
  description : String
  /-- The standard deviation of the log price over one step. -/
  volatility : Float
  /-- The expected growth of the log price over one step. -/
  drift : Float
  /-- A relative move of the price that happens once. -/
  shock : Option Float

namespace Scenario

def calm : Scenario := ⟨"Calm", "Low volatility, no drift", 0.002, 0.0, none⟩

def trending : Scenario := ⟨"Trending", "Steady upward drift", 0.005, 0.001, none⟩

def volatile : Scenario := ⟨"Volatile", "High volatility random walk", 0.03, 0.0, none⟩

def flashCrash : Scenario :=
  ⟨"Flash_Crash", "Calm market with a sudden 20% drop halfway through", 0.002, 0.0, some (-0.2)⟩

/-- All presets. -/
def all : List Scenario := [calm, trending, volatile, flashCrash]

/-- The preset of a name. -/
def find (name : String) : Except Fault Scenario :=
  match all.find? fun s ↦ Text.upperCase s.name == Text.upperCase name with
  | some scenario => .ok scenario
  | none => .error (.unknownScenario name)

/-- The preset that a value names. -/
def ofValue : Value → Except Fault Scenario
  | .text name => find name
  | _ => .error .notText

end Scenario

end ConcentratedPool
