import Rebac.CommandLine.Request

/-!
# Reading the command line

Arguments are read on two levels.  On the first one stand the options for all
commands, up to the command.  On the second one stand the options of the command.  The
option for the settings may stand on both, and the second one wins.

The value of an option is attached to it or is the next word.  An attached value is
checked at once.  A value that is a word of its own waits and is checked only when the
next option starts or the level ends.  So an unknown option or a word too many is
reported before a bad value that waits.  The level of the command ends before that of
the options around it.
-/

namespace Rebac.CommandLine

/-! ## Options -/

/-- The options that take a value. -/
inductive Opt where
  | config
  | schemaPath
  | inputFormat
  | outputFormat
  deriving Repr, DecidableEq

/-- Whether an option takes a value. -/
def Opt.accepts : Opt → String → Bool
  | .config, value | .schemaPath, value => value ≠ ""
  | .inputFormat, value => (InputFormat.ofName? value).isSome
  | .outputFormat, value => (OutputFormat.ofName? value).isSome

/-- What the name of an argument stands for. -/
inductive Meaning where
  | option (o : Opt)
  | flag (cause : UsageCause)
  deriving Repr, DecidableEq

/-- The commands. -/
inductive Command where
  | compile
  | check
  deriving Repr, DecidableEq

/-- A level of the command line: before the command, or after it. -/
inductive Level where
  | outer
  | inner (command : Command)
  deriving Repr, DecidableEq

/-- The long names on a level. -/
def Level.long? : Level → String → Option Meaning
  | _, "config" => some (.option .config)
  | _, "help" => some (.flag .help)
  | .outer, "version" => some (.flag .version)
  | .inner _, "schema-path" => some (.option .schemaPath)
  | .inner _, "input-format" => some (.option .inputFormat)
  | .inner .compile, "output-format" => some (.option .outputFormat)
  | _, _ => none

/-- The letters on a level. -/
def Level.short? : Level → Char → Option Meaning
  | _, 'c' => some (.option .config)
  | _, 'h' => some (.flag .help)
  | .outer, 'V' => some (.flag .version)
  | _, _ => none

/-- The words that end the outer level. -/
def commandWords : List String := ["compile", "check", "help"]

/-- Whether a word ends a level. -/
def Level.isCommand : Level → String → Bool
  | .outer, word => commandWords.contains word
  | .inner _, _ => false

/-- Why a word that is no command and no value cannot stand on a level. -/
def Level.surplus : Level → UsageCause
  | .outer => .invalidCommand
  | .inner _ => .unknownArgument

/-- Why a word cannot stand on a level after `--`. -/
def Level.surplusAfterDashes (level : Level) (word : String) : UsageCause :=
  if level.isCommand word then .unknownArgument else level.surplus

/-! ## Arguments -/

/-- The kinds of arguments. -/
inductive Argument where
  /-- `--`, after which there are only words. -/
  | dashes
  /-- `--name` or `--name=value`. -/
  | long (name : String) (value : Option String)
  /-- `-x`, with what follows the letter. -/
  | short (letter : Char) (rest : List Char)
  /-- Any other word, also `-`. -/
  | word
  deriving Repr, DecidableEq

/-- What follows the equals sign of a text, if it has one. -/
def afterEquals? (text : List Char) : Option String :=
  match text.dropWhile (· ≠ '=') with
  | [] => none
  | _ :: value => some (String.ofList value)

/-- The kind of an argument. -/
def Argument.ofString (arg : String) : Argument :=
  match arg.toList with
  | ['-', '-'] => .dashes
  | '-' :: '-' :: text => .long (String.ofList (text.takeWhile (· ≠ '='))) (afterEquals? text)
  | '-' :: letter :: rest => .short letter rest
  | _ => .word

/-- The value attached to a letter, with or without an equals sign. -/
def attached? : List Char → Option String
  | [] => none
  | '=' :: value => some (String.ofList value)
  | value => some (String.ofList value)

/-! ## Levels -/

/-- The options that were given, with values that were checked. -/
abbrev Given := List (Opt × String)

/-- Checks the value of an option and adds it.  A missing value is reported first, then
a repeated option, then a bad value. -/
def Given.add (given : Given) (o : Opt) : Option String → Except UsageCause Given
  | none => .error .invalidValue
  | some value =>
      if (given.lookup o).isSome then .error .repeatedOption
      else if o.accepts value then .ok (given ++ [(o, value)])
      else .error .invalidValue

/-- How far a level was read. -/
structure Progress where
  /-- The options with values that were checked. -/
  given : Given := []
  /-- The last option, if its value was not checked yet, and that value, if there is
  one. -/
  waiting : Option (Opt × Option String) := none
  /-- Whether `--` was read. -/
  onlyWords : Bool := false
  deriving Repr, DecidableEq

/-- The options that were given, after the check of the one that waits. -/
def Progress.settle (p : Progress) : Except UsageCause Given :=
  match p.waiting with
  | none => .ok p.given
  | some (o, value) => p.given.add o value

/-- Goes on with an option or a flag of a level. -/
def Progress.start (p : Progress) (value : Option String) :
    Option Meaning → Except UsageCause Progress
  | none => .error .unknownArgument
  | some (.flag cause) => do
      let _ ← p.settle
      .error cause
  | some (.option o) => do
      let given ← p.settle
      match value with
      | none => .ok { given := given, waiting := some (o, none) }
      | some value => do
          let given ← given.add o value
          .ok { given := given }

/-- Goes on with a long name of a level.  A flag takes no value. -/
def Progress.startLong (p : Progress) (value : Option String) (meaning : Option Meaning) :
    Except UsageCause Progress :=
  match meaning, value with
  | some (.flag _), some _ => .error .surplusValue
  | _, _ => p.start value meaning

/-- Goes on with a word that is no command. -/
def Progress.word (p : Progress) (level : Level) (word : String) : Except UsageCause Progress :=
  match p.waiting with
  | some (o, none) => .ok { p with waiting := some (o, some word) }
  | _ => .error level.surplus

/-- Whether the next word is the value of an option. -/
def Progress.needsValue (p : Progress) : Bool :=
  match p.waiting with
  | some (_, none) => true
  | _ => false

/-- Goes on with an argument. -/
def Progress.step (p : Progress) (level : Level) (arg : String) : Except UsageCause Progress :=
  if p.onlyWords then .error (level.surplusAfterDashes arg)
  else
    match Argument.ofString arg with
    | .dashes => .ok { p with onlyWords := true }
    | .long name value => p.startLong value (level.long? name)
    | .short letter rest => p.start (attached? rest) (level.short? letter)
    | .word => p.word level arg

/-- Reads a level.  Gives also the word that ended it and the arguments after it. -/
def readLevel (level : Level) : Progress → List String →
    Except UsageCause (Progress × Option (String × List String))
  | p, [] => .ok (p, none)
  | p, arg :: args =>
      if level.isCommand arg ∧ !p.onlyWords ∧ !p.needsValue then .ok (p, some (arg, args))
      else do
        let p ← p.step level arg
        readLevel level p args

/-! ## Requests -/

/-- Why a command line that asks for help gives no request.  No command has commands of
its own. -/
def helpCause : List String → UsageCause
  | [] => .help
  | [word] => if commandWords.contains word then .help else .invalidCommand
  | _ => .invalidCommand

/-- Reads the arguments of a command, given the outer level. -/
def readCommand (outer : Progress) (command : Command) (args : List String) :
    Except UsageCause Request := do
  let (p, _) ← readLevel (.inner command) {} args
  let inner ← p.settle
  match inner.lookup .schemaPath with
  | none => .error .missingSchemaPath
  | some schemaPath => do
      let outer ← outer.settle
      let format := (inner.lookup .outputFormat).bind OutputFormat.ofName?
      .ok
        { config := (inner.lookup .config).or (outer.lookup .config)
          schemaPath := schemaPath
          inputFormat := ((inner.lookup .inputFormat).bind InputFormat.ofName?).getD .auto
          task :=
            match command with
            | .compile => .compile format
            | .check => .check }

/-- Reads a command line. -/
def read (args : List String) : Except UsageCause Request := do
  match ← readLevel .outer {} args with
  | (outer, some ("compile", args)) => readCommand outer .compile args
  | (outer, some ("check", args)) => readCommand outer .check args
  | (_, some (_, args)) => .error (helpCause args)
  | (outer, none) => do
      let given ← outer.settle
      .error (if given.isEmpty then .nothingGiven else .missingCommand)

end Rebac.CommandLine
