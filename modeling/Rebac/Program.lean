import Rebac.CommandLine.Reading
import Rebac.Language.Reading
import Rebac.Settings
import Rebac.Wire.Reading

/-!
# The program

A request is carried out in one line of steps: load the settings, read the schema,
validate it, compile it and print the result.  The first step that fails ends it.  The
files and the environment are arguments, so nothing here depends on the world.
-/

namespace Rebac

/-- Why a request cannot be carried out. -/
inductive RunError where
  /-- The settings cannot be loaded. -/
  | settings (error : Settings.LoadError)
  /-- The schema cannot be read. -/
  | unreadable (path : String) (failure : ReadFailure)
  /-- The text of the schema is wrong. -/
  | text (error : Language.TextError)
  /-- The wire form of the schema is wrong. -/
  | wire (error : Wire.WireError)
  /-- The schema is not valid. -/
  | invalid (problems : List Problem)
  /-- The schema cannot be compiled. -/
  | compile (error : CompileError)

/-- The error in words. -/
def RunError.message : RunError → String
  | .settings error => "config error: " ++ error.message
  | .unreadable path failure => "failed to read schema '" ++ path ++ "': " ++ failure.message
  | .text error => "parse error: " ++ error.message
  | .wire error => "decode error: " ++ error.message
  | .invalid problems =>
      "schema validation errors: " ++ "; ".intercalate (problems.map Problem.message)
  | .compile error => "compile error: " ++ error.message

/-- Reads a schema in the given form. -/
def SchemaForm.read (form : SchemaForm) (text : String) : Except RunError Schema :=
  match form with
  | .language => (Language.readSchema text).mapError .text
  | .wire => (Wire.readSchema text).mapError .wire

/-- Loads the schema of a request. -/
def Request.schema (r : Request) (source : TextSource) : Except RunError Schema := do
  let text ← (source r.schemaPath).mapError (.unreadable r.schemaPath)
  (r.inputFormat.settle r.schemaPath).read text

/-- The rules of a schema that is valid under the settings. -/
def Settings.rules (settings : Settings) (schema : Schema) : Except RunError RuleBase :=
  match schema.problems settings.limits with
  | [] => (schema.compile settings.recursive).mapError .compile
  | problems => .error (.invalid problems)

/-- What a task prints of a rule base. -/
def Task.output (task : Task) (settings : Settings) (rules : RuleBase) : String :=
  match task with
  | .compile format => rules.render (format.getD settings.outputFormat)
  | .check => rules.summary

/-- Carries out a request. -/
def Request.run (r : Request) (source : TextSource) (environment : Settings.Environment) :
    Except RunError String := do
  let settings ← (Settings.load source environment r.config).mapError .settings
  let schema ← r.schema source
  let rules ← settings.rules schema
  .ok (r.task.output settings rules)

/-! ## Exit codes -/

/-- How the program ends. -/
structure Outcome where
  /-- The exit code. -/
  code : UInt32
  /-- What is printed. -/
  output : String
  /-- What is reported apart from the output. -/
  report : String := ""
  deriving Repr, DecidableEq

/-- The line that tells the version. -/
def versionLine : String := "rulegen 0.1.0\n"

/-- What help prints. -/
def helpText : String :=
  "Compile ReBAC schemas into query rules\n\n" ++
  "Usage: rulegen [OPTIONS] <COMMAND>\n\n" ++
  "Commands:\n" ++
  "  compile  Compile a schema and print the rules\n" ++
  "  check    Validate and compile a schema without printing the rules\n" ++
  "  help     Print this message\n\n" ++
  "Options:\n" ++
  "  -c, --config <CONFIG>                The settings\n" ++
  "      --schema-path <SCHEMA_PATH>      The schema\n" ++
  "      --input-format <INPUT_FORMAT>    auto, dsl or json\n" ++
  "      --output-format <OUTPUT_FORMAT>  sql, log or json\n" ++
  "  -h, --help                           Print help\n" ++
  "  -V, --version                        Print version\n"

/-- How the program ends on a command line that gives no request. -/
def UsageCause.outcome : UsageCause → Outcome
  | .help => { code := 0, output := helpText }
  | .version => { code := 0, output := versionLine }
  | _ => { code := 2, output := "", report := helpText }

/-- How the program ends on a request. -/
def Request.outcome (r : Request) (source : TextSource) (environment : Settings.Environment) :
    Outcome :=
  match r.run source environment with
  | .ok output => { code := 0, output := output ++ "\n" }
  | .error error => { code := 1, output := "", report := error.message ++ "\n" }

/-- How the program ends on a command line. -/
def outcome (args : List String) (source : TextSource) (environment : Settings.Environment) :
    Outcome :=
  match CommandLine.read args with
  | .error cause => cause.outcome
  | .ok r => r.outcome source environment

end Rebac
