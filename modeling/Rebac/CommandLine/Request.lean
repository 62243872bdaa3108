import Rebac.FileSet
import Rebac.Rule.Render

/-!
# Requests

What the command line asks for: to compile a schema and print its rules, or to check
that it compiles.  The form of the schema is given, or the extension of its path
decides.
-/

namespace Rebac

/-! ## The form of a schema -/

/-- The form in which a schema is written. -/
inductive SchemaForm where
  | language
  | wire
  deriving Repr, DecidableEq

/-- The form of a schema as it is asked for. -/
inductive InputFormat where
  | auto
  | fixed (form : SchemaForm)
  deriving Repr, DecidableEq

/-- The input format of that name. -/
def InputFormat.ofName? : String → Option InputFormat
  | "auto" => some .auto
  | "dsl" => some (.fixed .language)
  | "json" => some (.fixed .wire)
  | _ => none

/-- The file name of a path, its last part that names something. -/
def fileName? (path : String) : Option String :=
  match (pathNames path).getLast? with
  | some ".." | none => none
  | some name => some name

/-- The extension of a path: what follows the last point of the file name, unless the
name starts with that point. -/
def extension? (path : String) : Option String := do
  let name ← fileName? path
  let after := name.toList.reverse.takeWhile (· ≠ '.')
  let before := name.length - after.length
  if 1 < before then some (String.ofList after.reverse) else none

/-- Whether a path is that of a JSON file. -/
def isJsonPath (path : String) : Bool :=
  (extension? path).any fun extension => extension.map Char.toLower = "json"

/-- The form of the schema at a path. -/
def InputFormat.settle (format : InputFormat) (path : String) : SchemaForm :=
  match format with
  | .fixed form => form
  | .auto => if isJsonPath path then .wire else .language

/-! ## Requests and usage errors -/

/-- What to do with a schema. -/
inductive Task where
  /-- Print its rules, in the given format or that of the settings. -/
  | compile (format : Option OutputFormat)
  /-- Print how many rules it has. -/
  | check
  deriving Repr, DecidableEq

/-- What the command line asks for. -/
structure Request where
  config : Option String
  schemaPath : String
  inputFormat : InputFormat
  task : Task
  deriving Repr, DecidableEq

/-- Why a command line gives no request. -/
inductive UsageCause where
  /-- Help is asked for. -/
  | help
  /-- The version is asked for. -/
  | version
  /-- There are no arguments. -/
  | nothingGiven
  /-- There is no command. -/
  | missingCommand
  /-- There is no such command. -/
  | invalidCommand
  /-- An option is not known, or a word is one too many. -/
  | unknownArgument
  /-- A value is missing, empty, or none of the possible ones. -/
  | invalidValue
  /-- A flag has a value. -/
  | surplusValue
  /-- An option is given twice. -/
  | repeatedOption
  /-- There is no path of a schema. -/
  | missingSchemaPath
  deriving Repr, DecidableEq

end Rebac
