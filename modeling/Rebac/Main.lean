import Rebac.Program

/-!
# The command line

Reads the files and the variables that a command line names, and prints how the
program ends.
-/

namespace Rebac

/-- The failure behind an error of the system. -/
def ReadFailure.ofError : IO.Error → ReadFailure
  | .noFileOrDirectory .. => .missing
  | .inappropriateType _ 21 _ => .directory
  | .inappropriateType .. => .notDirectory
  | error => .other (toString error)

/-- Reads a file as text. -/
def readText (path : String) : IO (Except ReadFailure String) := do
  try
    let bytes ← IO.FS.readBinFile path
    match String.fromUTF8? bytes with
    | some text => return .ok text
    | none => return .error .notText
  catch error => return .error (.ofError error)

/-- The variables that change the settings, as far as they are set. -/
def readEnvironment : IO Settings.Environment := do
  let values ← Settings.variableNames.mapM fun name => do
    return (← IO.getEnv name).map (name, ·)
  return values.filterMap id

/-- Reads the files that a request names. -/
def readSource (r : Request) : IO TextSource := do
  let texts ← (r.config.toList ++ [r.schemaPath]).mapM fun path => do
    return (path, ← readText path)
  return fun path => (texts.lookup path).getD (.error .missing)

/-- How the program ends on a command line. -/
def runArguments (args : List String) : IO Outcome := do
  match CommandLine.read args with
  | .error cause => return cause.outcome
  | .ok r => return r.outcome (← readSource r) (← readEnvironment)

end Rebac

/-- Runs the program. -/
def main (args : List String) : IO UInt32 := do
  let outcome ← Rebac.runArguments args
  IO.print outcome.output
  IO.eprint outcome.report
  return outcome.code
