import Rebac.Language.Grammar
import Rebac.Language.Report

/-!
# From text to schema

A text is parsed first.  Only then is it checked, from left to right.

* In a chain all operators are the same, since there is no precedence, and an
  exclusion has two operands.  The operands of a chain are checked before it.
* A type has no two relations and no two permissions of one name, and a schema no
  two types.  A name is compared with the earlier ones after its own declaration
  was checked.
-/

namespace Rebac.Language

/-- Why a text is no schema. -/
inductive TextError where
  /-- It does not parse. -/
  | badSyntax (report : Report)
  /-- A chain has different operators. -/
  | mixedOperators
  /-- A chain has more than one exclusion. -/
  | multipleExclusions
  /-- Two types share a name. -/
  | duplicateType (name : String)
  /-- Two relations of a type share a name. -/
  | duplicateRelation (type relation : String)
  /-- Two permissions of a type share a name. -/
  | duplicatePermission (type permission : String)
  deriving Repr, DecidableEq

/-- The error in words. -/
def TextError.message : TextError → String
  | .badSyntax report => "syntax error: " ++ report.text
  | .mixedOperators =>
      "mixed operators in permission expression: use parentheses to combine +, & and -"
  | .multipleExclusions => "exclusion (-) supports exactly two operands: base - excluded"
  | .duplicateType name => "duplicate type: " ++ name
  | .duplicateRelation type relation =>
      "duplicate relation '" ++ relation ++ "' in type '" ++ type ++ "'"
  | .duplicatePermission type permission =>
      "duplicate permission '" ++ permission ++ "' in type '" ++ type ++ "'"

/-- The expression of a chain, from its operators and the expressions of its
terms. -/
def ofChain (first : Expr) (rest : List (Operator × Expr)) : Except TextError Expr :=
  match rest with
  | [] => .ok first
  | (op, second) :: more =>
      if more.any (·.1 ≠ op) then .error .mixedOperators
      else
        match op with
        | .union => .ok (.union (first :: rest.map (·.2)))
        | .intersection => .ok (.intersection (first :: rest.map (·.2)))
        | .exclusion =>
            if more.isEmpty then .ok (.exclusion first second) else .error .multipleExclusions

mutual

/-- The expression that was written. -/
def Tree.expr : Tree → Except TextError Expr
  | .name source => .ok (.name source)
  | .arrow base target => .ok (.arrow base target)
  | .chain first rest => do
      let e ← first.expr
      let es ← Tree.exprs rest
      ofChain e es

/-- The expressions of the terms after operators. -/
def Tree.exprs : List (Operator × Tree) → Except TextError (List (Operator × Expr))
  | [] => .ok []
  | (op, tree) :: rest => do
      let e ← tree.expr
      let es ← Tree.exprs rest
      return (op, e) :: es

end

/-- Adds an item to a type. -/
def addItem (t : ObjectType) : Item → Except TextError ObjectType
  | .relation r =>
      if (t.relation? r.name).isSome then .error (.duplicateRelation t.name r.name)
      else .ok { t with relations := t.relations ++ [r] }
  | .permission name tree => do
      let e ← tree.expr
      if (t.permission? name).isSome then .error (.duplicatePermission t.name name)
      else .ok { t with permissions := t.permissions ++ [⟨name, e⟩] }

/-- The type that was written. -/
def Definition.objectType (d : Definition) : Except TextError ObjectType :=
  d.items.foldlM addItem ⟨d.name, [], []⟩

/-- Adds a type to a schema. -/
def addDefinition (s : Schema) (d : Definition) : Except TextError Schema := do
  let t ← d.objectType
  if (s.type? t.name).isSome then .error (.duplicateType t.name)
  else .ok ⟨s.types ++ [t]⟩

/-- Reads a schema from a text. -/
def readSchema (text : String) : Except TextError Schema :=
  let outcome := schemaText text.toList
  match outcome.result with
  | some (definitions, _) => definitions.foldlM addDefinition ⟨[]⟩
  | none =>
      let start : Attempts := ⟨text.toList.length, []⟩
      .error (.badSyntax (Report.of text.toList (start.addAll outcome.trace)))

end Rebac.Language
