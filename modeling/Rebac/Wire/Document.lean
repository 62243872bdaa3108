import Rebac.Json.Reader
import Rebac.Schema

/-!
# Wire documents

A schema also travels as JSON.  There the types of a schema, the relations and the
permissions of a type are maps, keyed by name.  A wire document is such a JSON value
as it stands in the text: the entries of its maps are in the order of the text and a
key may be repeated.

Every collection may be left out and is then empty.  So may the name of a type, which
its key gives already, and both parts of a restriction.  Expressions are spelled out in
full, one object with one member for each operation.
-/

namespace Rebac.Wire

open Json (Reader Record Field Variant)

/-- A restriction of a relation.  A part that is left out is empty. -/
structure SubjectEntry where
  /-- The type of the subject. -/
  type : String
  /-- The relation on the subject, empty for the subject itself. -/
  relation : String
  deriving Repr, DecidableEq

/-- The definition of a type. -/
structure TypeEntry where
  /-- The name of the type, empty if it is left out. -/
  name : String
  /-- The relations by key, with their restrictions. -/
  relations : List (String × List SubjectEntry)
  /-- The permissions by key, with their expressions. -/
  permissions : List (String × Expr)
  deriving Repr, DecidableEq

/-- A wire document. -/
structure Document where
  types : List (String × TypeEntry)
  deriving Repr, DecidableEq

/-! ## Expressions -/

/-- Reads the operands of a set expression. -/
def operands (expr : Reader Expr) : Reader (List Expr) :=
  (Record.single "struct WireOperands" "operands" (Reader.list expr) (some [])).read

/-- The variants of a set expression. -/
def setVariants (expr : Reader Expr) : List (Variant Expr) :=
  [⟨"union", "newtype variant", (operands expr).apply Expr.union⟩,
    ⟨"intersection", "newtype variant", (operands expr).apply Expr.intersection⟩]

/-- Reads the content of a name. -/
def nameContent : Reader String :=
  (Record.single "struct variant WireExpression::UnaryExpression" "sourceRelation"
    Reader.string none).read

/-- Reads the content of an arrow. -/
def arrowContent : Reader (String × String) :=
  (Record.pair "struct variant WireExpression::HierarchicalExpression" "base" "target"
    Reader.string none).read

/-- Reads the content of an exclusion. -/
def exclusionContent (expr : Reader Expr) : Reader (Expr × Expr) :=
  (Record.pair "struct variant WireExpression::ExclusionExpression" "base" "subtract"
    expr none).read

/-- The variants of an expression, given the reader of the expressions inside. -/
def exprVariants (expr : Reader Expr) : List (Variant Expr) :=
  [⟨"unaryExpression", "struct variant", nameContent.apply Expr.name⟩,
    ⟨"hierarchicalExpression", "struct variant",
      arrowContent.apply fun (base, target) => Expr.arrow base target⟩,
    ⟨"setExpression", "newtype variant", Reader.choice (setVariants expr)⟩,
    ⟨"exclusionExpression", "struct variant",
      (exclusionContent expr).apply fun (base, subtract) => Expr.exclusion base subtract⟩]

/-- Reads an expression that nests at most so deep. -/
def exprWithin : Nat → Reader Expr
  | 0 => fun _ _ => .error .tooDeep
  | n + 1 => Reader.choice (exprVariants (exprWithin n))

/-- Reads an expression.  Every expression takes a level, so no text reaches the
bound on how deep expressions nest before the bound on levels. -/
def expr : Reader Expr := exprWithin (Json.levelLimit + 1)

/-! ## Definitions -/

/-- Reads a restriction. -/
def subjectEntry : Reader SubjectEntry :=
  (Record.pair "struct WireTypeRestriction" "resourceType" "relation" Reader.string
    (some "")).read.apply fun (type, relation) => ⟨type, relation⟩

/-- Reads the restrictions of a relation. -/
def relation : Reader (List SubjectEntry) :=
  (Record.single "struct WireRelation" "typeRestrictions" (Reader.list subjectEntry)
    (some [])).read

/-- Reads the expression of a permission. -/
def permission : Reader Expr :=
  (Record.single "struct WirePermission" "expression" expr none).read

/-- A definition of a type in the course of reading. -/
structure TypeDraft where
  name : Option String
  relations : Option (List (String × List SubjectEntry))
  permissions : Option (List (String × Expr))

/-- The shape of the definition of a type. -/
def typeRecord : Record TypeDraft TypeEntry where
  title := "struct WireTypeDefinition"
  fields :=
    [Field.of "name" Reader.string (·.name) fun draft x => { draft with name := x },
      Field.of "relations" (Reader.map relation) (·.relations)
        fun draft x => { draft with relations := x },
      Field.of "permissions" (Reader.map permission) (·.permissions)
        fun draft x => { draft with permissions := x }]
  empty := ⟨none, none, none⟩
  build draft :=
    .ok ⟨draft.name.getD "", draft.relations.getD [], draft.permissions.getD []⟩

/-- Reads a document. -/
def document : Reader Document :=
  (Record.single "struct WireSchema" "typeDefinitions" (Reader.map typeRecord.read)
    (some [])).read.apply Document.mk

end Rebac.Wire
