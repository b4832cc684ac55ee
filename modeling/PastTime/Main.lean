import PastTime.CommandLine

/-!
# The program

Reads the arguments and the configuration file, and prints what `CommandLine.run` says.
-/

namespace PastTime.CommandLine

/-- How the program is called. -/
def usage : String :=
  "Usage: compile-predicates [--seed <SEED> | --sequential] <CONFIG>"

/-- Reads the configuration at a path and compiles it. -/
def compileFile (path : String) (choice : Choice) : IO Outcome := do
  let bytes ← IO.getRandomBytes 8
  let seed := bytes.toList.foldl (fun seed byte => 256 * seed + byte.toUInt64) 0
  match ← (IO.FS.readFile path).toBaseIO with
  | .error error => return .failed (errorReport s!"Failed to read {path}" (toString error))
  | .ok text =>
    match Config.read text with
    | .error error => return .failed (errorReport "Failed to parse the configuration" error.message)
    | .ok config => return run config choice seed

end PastTime.CommandLine

open PastTime.CommandLine in
/-- Runs the program. -/
def main (arguments : List String) : IO UInt32 := do
  let outcome ← match readArguments? arguments with
    | none => pure .usage
    | some (path, choice) => compileFile path choice
  match outcome with
  | .usage => IO.eprintln usage
  | .failed report => IO.eprint report
  | .printed text => IO.print text
  return outcome.exitCode
