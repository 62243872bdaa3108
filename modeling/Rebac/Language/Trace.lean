/-!
# What a parse tried, and where it got furthest

A parse runs the rules of the grammar.  Its *trace* records each run, as a tree:
the rule, how many characters were left where it started, whether it succeeded,
and the runs inside it.

If the text does not parse, the report names the furthest position at which a
rule failed and the rules that were tried there.  These *attempts* are collected
by going through the trace from left to right, inner runs before the run that
holds them.  A failed rule stands for what failed inside it at its own start,
unless that was a single rule, which says more.
-/

namespace Rebac.Language

/-- The rules of the grammar, in the order in which reports list them. -/
inductive Rule where
  /-- The end of the text. -/
  | endOfInput
  /-- A name. -/
  | identifier
  /-- A whole text. -/
  | schema
  /-- A type. -/
  | definition
  /-- The braces of a type and what is in them. -/
  | definitionBody
  /-- A relation. -/
  | relationDef
  /-- The subjects of a relation. -/
  | subjectTypeList
  /-- A subject of a relation. -/
  | subjectTypeRef
  /-- A permission. -/
  | permissionDef
  /-- An expression. -/
  | permissionExpr
  /-- An operand of an expression. -/
  | permissionTerm
  /-- An arrow. -/
  | arrowExpr
  /-- The operator `+`. -/
  | unionOp
  /-- The operator `&`. -/
  | intersectionOp
  /-- The operator `-`. -/
  | exclusionOp
  deriving Repr, DecidableEq

/-- Every rule, in the order in which reports list them. -/
def Rule.all : List Rule :=
  [.endOfInput, .identifier, .schema, .definition, .definitionBody, .relationDef,
    .subjectTypeList, .subjectTypeRef, .permissionDef, .permissionExpr, .permissionTerm,
    .arrowExpr, .unionOp, .intersectionOp, .exclusionOp]

/-- The name of a rule in reports. -/
def Rule.text : Rule → String
  | .endOfInput => "EOI"
  | .identifier => "identifier"
  | .schema => "schema"
  | .definition => "definition"
  | .definitionBody => "definition_body"
  | .relationDef => "relation_def"
  | .subjectTypeList => "subject_type_list"
  | .subjectTypeRef => "subject_type_ref"
  | .permissionDef => "permission_def"
  | .permissionExpr => "permission_expr"
  | .permissionTerm => "permission_term"
  | .arrowExpr => "arrow_expr"
  | .unionOp => "union_op"
  | .intersectionOp => "intersection_op"
  | .exclusionOp => "exclusion_op"

/-- A run of a rule. -/
inductive Trace where
  /-- The rule, the number of characters left where it started, whether it
  succeeded, and the runs inside it in order. -/
  | run (rule : Rule) (left : Nat) (success : Bool) (inner : List Trace)
  deriving Repr

/-- The rules that failed at the furthest position so far. -/
structure Attempts where
  /-- How many characters are left at that position. -/
  left : Nat
  /-- The rules that failed there, in order. -/
  rules : List Rule
  deriving Repr, DecidableEq

/-- How many rules have failed at a position. -/
def Attempts.countAt (a : Attempts) (left : Nat) : Nat :=
  if left = a.left then a.rules.length else 0

/-- Records that a rule failed which started where `left` characters are left.
At that position `before` rules had failed when it started. -/
def Attempts.fail (a : Attempts) (rule : Rule) (left before : Nat) : Attempts :=
  if a.countAt left = before + 1 then a
  else if left < a.left then ⟨left, [rule]⟩
  else if left = a.left then ⟨left, a.rules.take before ++ [rule]⟩
  else a

mutual

/-- Collects the attempts of a run. -/
def Attempts.add (a : Attempts) : Trace → Attempts
  | .run rule left success inner =>
      if success then a.addAll inner
      else (a.addAll inner).fail rule left (a.countAt left)

/-- Collects the attempts of runs in order. -/
def Attempts.addAll (a : Attempts) : List Trace → Attempts
  | [] => a
  | t :: ts => (a.add t).addAll ts

end

/-- The rules to report: those attempted, each once, in the order of reports. -/
def Attempts.expected (a : Attempts) : List Rule := Rule.all.filter (· ∈ a.rules)

end Rebac.Language
