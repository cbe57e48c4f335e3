import ConcentratedPool.CommandLine.Request
import ConcentratedPool.Report.Summary

/-!
# Sessions of the command line

`run` carries out what a command line asks for: it sets a simulation up, runs it once and prints the
summary. An `Ending` says how this came out, and has the exit status and the output of the session.
Faults that are none of the pool, of its settings or of the command line are not answered here.

What a session logs, and the files that it writes to an output directory, are left out.
-/

set_option autoImplicit false
set_option relaxedAutoImplicit false

namespace ConcentratedPool.CommandLine

/-- How a session ends. -/
inductive Ending where
  /-- With a summary of the simulation. -/
  | summary (text : String)
  /-- With an explanation of the command line. -/
  | help
  /-- The pool refused to be set up or run. -/
  | refused (fault : Fault)
  /-- Fields of the settings do not fit. -/
  | misfit (faults : List FieldFault)
  /-- The command line was not understood. -/
  | misuse (fault : UsageFault)
deriving DecidableEq

namespace Ending

/-- The exit status. -/
def status : Ending → Nat
  | summary _ | help => 0
  | refused _ => 1
  | misfit _ | misuse _ => 2

/-- What is printed. -/
def output : Ending → String
  | summary text => text
  | _ => ""

end Ending

/-- Runs one simulation and gives its summary. -/
def simulate (request : Request) (source : NormalSource) : Except Fault String := do
  let setup ← Simulation.Setup.ofFields request.fields
  let simulation ← Simulation.create setup source
  let (outcome, after) ← simulation.run none
  return (← Summary.ofSimulation after outcome).render

/-- Carries out a command line, with random numbers from `source`. -/
def run (arguments : List String) (source : NormalSource) : Except Fault Ending :=
  match Request.ofArguments arguments with
  | .error .help => .ok .help
  | .error fault => .ok (.misuse fault)
  | .ok request =>
    match simulate request source with
    | .ok text => .ok (.summary text)
    | .error (.fields faults) => .ok (.misfit faults)
    | .error fault => if fault.isRejection then .ok (.refused fault) else .error fault

end ConcentratedPool.CommandLine
