import ObjectQuery.CommandLine.Run

/-!
# The program

The outer layer of the command line: it reads files and variables, prints
and sets the exit code. What there is to do is decided elsewhere.
-/

open ObjectQuery

/-- The content of a file, if it can be read as text. -/
def readFileText? (path : String) : IO (Option String) :=
  try return some (← IO.FS.readFile path) catch _ => return none

/-- Runs the command line. -/
def main (args : List String) : IO UInt32 := do
  let names := [Settings.depthVariable, Settings.formatVariable, Settings.logVariable]
  let values ← names.filterMapM fun name => do
    return (← IO.getEnv name).map (name, ·)
  let result ← CommandLine.run readFileText? (fun name => values.lookup name) args
  IO.print result.output
  match result.failure with
  | some failure => IO.eprintln failure.report
  | none => if result.code == 2 then IO.eprintln CommandLine.usageLine
  return result.code
