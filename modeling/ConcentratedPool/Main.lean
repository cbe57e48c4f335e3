import ConcentratedPool.CommandLine.Session
import ConcentratedPool.Market.NormalDraws

/-!
# The program

Runs the command line, with a seed of its own where that gives none, writes the output and ends with
the exit status. A fault that a session does not answer ends with status 1 as well.
-/

set_option autoImplicit false
set_option relaxedAutoImplicit false

open ConcentratedPool in
/-- Runs the command line. -/
def main (arguments : List String) : IO UInt32 := do
  let entropy ← IO.rand 0 1_000_000_000
  match CommandLine.run arguments (Market.polarSource entropy) with
  | .ok ending =>
    IO.print ending.output
    return UInt32.ofNat ending.status
  | .error fault =>
    IO.eprintln fault.message
    return 1
