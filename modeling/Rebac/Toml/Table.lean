/-!
# Tables of TOML

A table is a list of entries.  It comes about in one of four ways.

* `[a.b]` defines the table `b` in `a`.
* The same header implies the table `a`, which a later header may still define.
* `a.b = 1` extends the table `a` by a dotted key.  Only dotted keys extend such a
  table, and a header never defines it.
* `{ … }` is a table within a line, which nothing extends.

`[[a]]` adds a table to an array of tables.  A path that goes through such an array
goes to its last table.

A key is never given twice in a table.
-/

namespace Rebac.Toml

/-- How a table came about. -/
inductive Origin where
  /-- A header defines the table. -/
  | defined
  /-- The path of a header goes through the table. -/
  | implied
  /-- A dotted key goes through the table. -/
  | dotted
  /-- The table stands within a line. -/
  | inline
  deriving Repr, DecidableEq

/-- A value of a document. -/
inductive Value where
  /-- A string. -/
  | string (s : String)
  /-- A whole number. -/
  | integer (n : Int)
  /-- A float. -/
  | float
  /-- `true` or `false`. -/
  | boolean (b : Bool)
  /-- A date, a time or both. -/
  | moment
  /-- An array of values. -/
  | array (items : List Value)
  /-- A table. -/
  | table (origin : Origin) (entries : List (String × Value))
  /-- An array of tables, each defined by a header. -/
  | tables (rows : List (List (String × Value)))
  deriving Repr

/-- The entries of a table. -/
abbrev Entries := List (String × Value)

/-- Puts a value for a key, in place of the one it has. -/
def Entries.put (key : String) (value : Value) : Entries → Entries
  | [] => [(key, value)]
  | (k, v) :: entries =>
      if k = key then (k, value) :: entries else (k, v) :: Entries.put key value entries

/-- Changes the table at the end of a path.  Missing tables on the path are made, with
the given origin.  The change is told how its table came about. -/
def Entries.along (made : Origin) (change : Origin → Entries → Option Entries) :
    List String → Origin → Entries → Option Entries
  | [], origin, entries => change origin entries
  | key :: path, _, entries =>
      match entries.lookup key with
      | none => do
          let below ← Entries.along made change path made []
          some (entries.put key (.table made below))
      | some (.table origin below) =>
          if origin = .inline ∨ (made = .dotted ∧ origin = .defined) then none
          else do
            let below ← Entries.along made change path origin below
            some (entries.put key (.table origin below))
      | some (.tables rows) => do
          let last ← rows.getLast?
          let last ← Entries.along made change path .defined last
          some (entries.put key (.tables (rows.dropLast ++ [last])))
      | some _ => none

/-- A line `path.key = value`. -/
structure Assignment where
  path : List String
  key : String
  value : Value
  deriving Repr

/-- Adds an assignment to a table of the given origin.  A dotted key ends in a table
that dotted keys made, and any other key in one that they did not make. -/
def Entries.assign (entries : Entries) (origin : Origin) (a : Assignment) : Option Entries :=
  Entries.along .dotted
    (fun origin below =>
      if (origin == .dotted) = a.path.isEmpty ∨ (below.lookup a.key).isSome then none
      else some (below ++ [(a.key, a.value)]))
    a.path origin entries

/-- Adds assignments in order. -/
def Entries.assignAll (entries : Entries) (origin : Origin) (as : List Assignment) :
    Option Entries :=
  as.foldlM (·.assign origin) entries

/-! ## Sections -/

/-- What starts a section. -/
inductive Header where
  /-- `[path.key]` defines a table. -/
  | table (path : List String) (key : String)
  /-- `[[path.key]]` adds a table to an array. -/
  | row (path : List String) (key : String)
  deriving Repr, DecidableEq

/-- A header and the assignments after it. -/
structure Part where
  header : Header
  assignments : List Assignment
  deriving Repr

/-- Adds a section to a document. -/
def Entries.addPart (root : Entries) (part : Part) : Option Entries :=
  match part.header with
  | .table path key =>
      Entries.along .implied
        (fun _ entries => do
          let old ←
            match entries.lookup key with
            | none => some []
            | some (.table .implied old) => some old
            | some _ => none
          let new ← Entries.assignAll old .defined part.assignments
          some (entries.put key (.table .defined new)))
        path .defined root
  | .row path key =>
      Entries.along .implied
        (fun _ entries => do
          let old ←
            match entries.lookup key with
            | none => some []
            | some (.tables old) => some old
            | some _ => none
          let new ← Entries.assignAll [] .defined part.assignments
          some (entries.put key (.tables (old ++ [new]))))
        path .defined root

/-- The root table of a document, given the assignments before its first header and
its sections. -/
def Entries.ofParts (first : List Assignment) (parts : List Part) : Option Entries := do
  let root ← Entries.assignAll [] .defined first
  parts.foldlM Entries.addPart root

end Rebac.Toml
