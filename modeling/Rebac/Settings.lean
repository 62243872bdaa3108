import Rebac.FileSet
import Rebac.Rule.Render
import Rebac.Toml.Document
import Rebac.Validation

/-!
# Settings

The settings come from a TOML file with four sections, each of which may be left out,
as may every setting in it.  Variables of the environment override some of them.  At
last no limit may be zero.

A section is a table, whose unknown keys are ignored, or an array of its settings in
order, of which the last may be missing and others may follow.  A moment in place of a
section counts as a table of unknown keys.  A format is its name, or a table whose only
key is that name and whose value is empty.
-/

namespace Rebac

/-- How log lines are written. -/
inductive LogFormat where
  | json
  | pretty
  deriving Repr, DecidableEq, Inhabited

/-- The log format of that name. -/
def LogFormat.ofName? : String → Option LogFormat
  | "json" => some .json
  | "pretty" => some .pretty
  | _ => none

/-- The settings of the program. -/
structure Settings where
  logFormat : LogFormat := .json
  logLevel : String := "info"
  outputFormat : OutputFormat := .sql
  recursive : Bool := false
  limits : Limits := {}
  deriving Repr, DecidableEq, Inhabited

/-! ## Settings in a document -/

namespace Settings

open Toml (Value Entries)

/-- A setting, or a section of settings, and how a value changes it. -/
structure Key where
  /-- The name of the key. -/
  name : String
  /-- Changes the settings by a value of the key, if the value is of the right kind. -/
  read : Value → Settings → Option Settings

/-- Changes the settings by the values of keys in order. -/
def readInOrder (s : Settings) (keys : List Key) (values : List Value) : Option Settings :=
  (keys.zip values).foldlM (fun s (key, value) => key.read value s) s

/-- Changes the settings by the values of keys in a table. -/
def readByName (s : Settings) (keys : List Key) (entries : Entries) : Option Settings :=
  keys.foldlM
    (fun s key =>
      match entries.lookup key.name with
      | some value => key.read value s
      | none => some s)
    s

/-- Reads a section with the given keys. -/
def readSection (keys : List Key) (value : Value) (s : Settings) : Option Settings :=
  match value with
  | .table _ entries => s.readByName keys entries
  | .array items => s.readInOrder keys items
  | .tables rows => s.readInOrder keys (rows.map (.table .defined))
  | .moment => some s
  | _ => none

/-- Whether a value holds nothing. -/
def isEmptyValue : Value → Bool
  | .array [] | .table _ [] | .tables [] => true
  | _ => false

/-- Reads one of several names. -/
def readName {α : Type} (ofName? : String → Option α) : Value → Option α
  | .string name => ofName? name
  | .table _ [(name, value)] => if isEmptyValue value then ofName? name else none
  | _ => none

/-- Reads a string. -/
def readString : Value → Option String
  | .string text => some text
  | _ => none

/-- Reads a truth value. -/
def readBoolean : Value → Option Bool
  | .boolean b => some b
  | _ => none

/-- Reads a count, a whole number that is not negative. -/
def readCount : Value → Option Nat
  | .integer (.ofNat n) => some n
  | _ => none

/-- The key that a reader fills. -/
def Key.of {α : Type} (name : String) (read : Value → Option α) (set : Settings → α → Settings) :
    Key where
  name := name
  read value s := (read value).map (set s)

/-- The keys of the section on log lines. -/
def logKeys : List Key :=
  [.of "format" (readName LogFormat.ofName?) fun s x => { s with logFormat := x },
    .of "level" readString fun s x => { s with logLevel := x }]

/-- The keys of the section on output. -/
def outputKeys : List Key :=
  [.of "format" (readName OutputFormat.ofName?) fun s x => { s with outputFormat := x }]

/-- The keys of the section on compiling. -/
def compilerKeys : List Key :=
  [.of "allow_recursive_permissions" readBoolean fun s x => { s with recursive := x }]

/-- The keys of the section on limits. -/
def limitKeys : List Key :=
  [.of "max_types" readCount fun s x => { s with limits.types := x },
    .of "max_relations_per_type" readCount fun s x => { s with limits.relationsPerType := x },
    .of "max_permissions_per_type" readCount fun s x => { s with limits.permissionsPerType := x }]

/-- The sections of a document. -/
def sections : List Key :=
  [⟨"log", readSection logKeys⟩, ⟨"output", readSection outputKeys⟩,
    ⟨"compiler", readSection compilerKeys⟩, ⟨"schema_limits", readSection limitKeys⟩]

/-- The settings of a TOML text. -/
def ofText? (text : String) : Option Settings := do
  let root ← Toml.read text
  Settings.readByName {} sections root

/-! ## The environment -/

/-- The variables of the environment with their values. -/
abbrev Environment := List (String × String)

/-- The count that a variable gives: digits after an optional plus sign, in 64 bits. -/
def countOf? (text : String) : Option Nat :=
  let digits :=
    match text.toList with
    | '+' :: digits => digits
    | digits => digits
  let n := Text.numeral 10 digits
  if digits ≠ [] ∧ digits.all Text.isDigit ∧ n < Nat.pow 2 64 then some n else none

/-- The truth value that a variable gives. -/
def booleanOf? : String → Option Bool
  | "true" => some true
  | "false" => some false
  | _ => none

/-- Changes the settings by a variable, if it is there and can be read. -/
def override {α : Type} (s : Settings) (environment : Environment) (name : String)
    (read : String → Option α) (set : Settings → α → Settings) : Settings :=
  match (environment.lookup name).bind read with
  | some x => set s x
  | none => s

/-- The settings with the overrides of the environment. -/
def withEnvironment (s : Settings) (environment : Environment) : Settings :=
  let s := s.override environment "RULEGEN_LOG_LEVEL" some fun s x => { s with logLevel := x }
  let s := s.override environment "RULEGEN_LOG_FORMAT" LogFormat.ofName?
    fun s x => { s with logFormat := x }
  let s := s.override environment "RULEGEN_OUTPUT_FORMAT" OutputFormat.ofName?
    fun s x => { s with outputFormat := x }
  let s := s.override environment "RULEGEN_ALLOW_RECURSIVE_PERMISSIONS" booleanOf?
    fun s x => { s with recursive := x }
  s.override environment "RULEGEN_MAX_TYPES" countOf? fun s x => { s with limits.types := x }

/-- The variables that change the settings. -/
def variableNames : List String :=
  ["RULEGEN_LOG_LEVEL", "RULEGEN_LOG_FORMAT", "RULEGEN_OUTPUT_FORMAT",
    "RULEGEN_ALLOW_RECURSIVE_PERMISSIONS", "RULEGEN_MAX_TYPES"]

/-! ## Loading -/

/-- Why settings cannot be loaded. -/
inductive LoadError where
  /-- The file cannot be read. -/
  | unreadable (path : String) (failure : ReadFailure)
  /-- The file is not TOML, or a setting is of the wrong kind. -/
  | malformed
  /-- A limit is zero. -/
  | zeroLimit (name : String)
  deriving Repr, DecidableEq

/-- The error in words. -/
def LoadError.message : LoadError → String
  | .unreadable path failure =>
      "failed to read config file '" ++ path ++ "': " ++ failure.message
  | .malformed => "failed to parse TOML config"
  | .zeroLimit name => "config validation failed: schema_limits." ++ name ++ " must be non-zero"

/-- The name of the first limit that is zero. -/
def zeroLimit? (l : Limits) : Option String :=
  if l.types = 0 then some "max_types"
  else if l.relationsPerType = 0 then some "max_relations_per_type"
  else if l.permissionsPerType = 0 then some "max_permissions_per_type"
  else none

/-- The settings of a file, or the defaults if there is none. -/
def ofFile (source : TextSource) : Option String → Except LoadError Settings
  | none => .ok {}
  | some path =>
      match source path with
      | .error failure => .error (.unreadable path failure)
      | .ok text =>
          match ofText? text with
          | some s => .ok s
          | none => .error .malformed

/-- Loads the settings: the file, then the environment, then the check of the limits. -/
def load (source : TextSource) (environment : Environment) (path : Option String) :
    Except LoadError Settings := do
  let s ← ofFile source path
  let s := s.withEnvironment environment
  match zeroLimit? s.limits with
  | some name => .error (.zeroLimit name)
  | none => .ok s

end Settings

end Rebac
