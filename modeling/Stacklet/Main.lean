import Stacklet.CommandLine.Run

/-!
# The program

Runs a command line on the files of the system.
-/

namespace Stacklet.CommandLine

/-- The files of the system. -/
def systemFiles : Files IO where
  read? path := try return some (← IO.FS.readFile path) catch _ => return none
  write path text :=
    try
      IO.FS.writeFile path text
      return true
    catch _ => return false

end Stacklet.CommandLine

/-- Runs the command line that the program was started with. -/
def main (args : List String) : IO UInt32 := do
  let showsCode := (← IO.getEnv "LOWR_DEBUG_BYTECODE").isSome
  let report ← Stacklet.CommandLine.run Stacklet.CommandLine.systemFiles showsCode args
  IO.print report.out
  IO.eprint report.err
  return report.status
