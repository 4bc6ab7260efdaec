import FlatTree.Report

/-!
# The command line

Usage: `flattree [forest.json|forest.edn] [settings.edn]`. The report goes to the output, a failure
to the error output, and the exit code tells the two apart.
-/

open FlatTree

def readFile? (name : String) : IO (Option String) := do
  try
    let text ← IO.FS.readFile name
    pure (some text)
  catch _ => pure none

def main (arguments : List String) : IO UInt32 := do
  let files ← arguments.mapM fun name => do
    let text ← readFile? name
    pure (name, text)
  let outcome := Report.run files
  IO.print outcome.output
  if let some e := outcome.failure then
    IO.eprintln s!"Error: {e.message}"
  pure outcome.exitCode
