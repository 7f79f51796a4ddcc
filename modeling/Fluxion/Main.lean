import Fluxion.Command.Run

/-!
The command line: reads the files that are asked for, runs, and writes what comes out.
-/

namespace Fluxion

/-- What a file holds, if it can be read. -/
def readFile? (path : String) : IO (Option String) := do
  try
    return some (← IO.FS.readFile path)
  catch _ =>
    return none

/-- What the files hold that a command line may read. -/
def readFiles (argv : List String) : IO (List (String × String)) := do
  let paths := ((Command.Invocation.ofWords? argv).map (·.files)).getD []
  let contents ← paths.mapM fun path => do
    return (← readFile? path).map (path, ·)
  return contents.filterMap id

end Fluxion

/-- Runs the command line. -/
def main (argv : List String) : IO UInt32 := do
  let files ← Fluxion.readFiles argv
  let report := Fluxion.Command.run (fun path => files.lookup path) argv
  IO.print report.output.stdout
  IO.eprint report.output.stderr
  return report.code.toUInt32
