import Rebac.Wire.Document

/-!
# Schemas of wire documents

The schema of a document has its types, relations and permissions in the order of
their names, whatever the order of the text is.  Of entries with one key the last is
taken.

A type that is given a name has to be keyed by it, and every restriction needs a
type.  Types are checked in the order of their names, first the name of a type and then
its relations.
-/

namespace Rebac.Wire

/-- Why a text is not the wire form of a schema. -/
inductive WireError where
  /-- The text is not a wire document. -/
  | json (fault : Json.Fault)
  /-- A type has another name than its key. -/
  | nameMismatch (key name : String)
  /-- A restriction has no type. -/
  | emptySubjectType (type relation : String)
  deriving Repr, DecidableEq

/-- The error in words. -/
def WireError.message : WireError → String
  | .json fault => "invalid schema JSON: " ++ fault.message
  | .nameMismatch key name => "type definition keyed '" ++ key ++ "' is named '" ++ name ++ "'"
  | .emptySubjectType type relation =>
      "relation '" ++ relation ++ "' on type '" ++ type ++
        "' has a type restriction without a resource type"

/-! ## Tables -/

/-- Puts an entry into a list that is sorted by key, in place of one with that key. -/
def insertEntry {α : Type} (key : String) (x : α) : List (String × α) → List (String × α)
  | [] => [(key, x)]
  | (k, y) :: entries =>
      if key < k then (key, x) :: (k, y) :: entries
      else if key = k then (key, x) :: entries
      else (k, y) :: insertEntry key x entries

/-- The entries sorted by key, the last of each key. -/
def table {α : Type} (entries : List (String × α)) : List (String × α) :=
  entries.foldl (fun t e => insertEntry e.1 e.2 t) []

/-! ## Schemas -/

/-- The subject of a restriction, which needs a type. -/
def SubjectEntry.subject? (s : SubjectEntry) : Option Subject :=
  if s.type = "" then none
  else some ⟨s.type, if s.relation = "" then none else some s.relation⟩

/-- The relation of an entry. -/
def relationOf (type : String) : String × List SubjectEntry → Except WireError Relation
  | (name, subjects) =>
      match subjects.mapM SubjectEntry.subject? with
      | some subjects => .ok ⟨name, subjects⟩
      | none => .error (.emptySubjectType type name)

/-- The type of an entry. -/
def typeOf : String × TypeEntry → Except WireError ObjectType
  | (key, t) =>
      if t.name ≠ "" ∧ t.name ≠ key then .error (.nameMismatch key t.name)
      else do
        let relations ← (table t.relations).mapM (relationOf key)
        .ok ⟨key, relations, (table t.permissions).map fun (name, expr) => ⟨name, expr⟩⟩

/-- The schema of a document. -/
def Document.schema (d : Document) : Except WireError Schema := do
  let types ← (table d.types).mapM typeOf
  .ok ⟨types⟩

/-- Reads the wire form of a schema. -/
def readSchema (text : String) : Except WireError Schema :=
  match Json.readAll document text with
  | .ok d => d.schema
  | .error fault => .error (.json fault)

end Rebac.Wire
