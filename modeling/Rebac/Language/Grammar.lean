import Rebac.Language.Parser
import Rebac.Schema

/-!
# The grammar of schema texts

```
schema           = definition*
definition       = "definition" identifier definition_body
definition_body  = "{" (relation_def | permission_def)* "}"
relation_def     = "relation" identifier ":" subject_type_list
subject_type_list = subject_type_ref ("|" subject_type_ref)*
subject_type_ref = identifier ("#" identifier)?
permission_def   = "permission" identifier "=" permission_expr
permission_expr  = permission_term ((union_op | intersection_op | exclusion_op) permission_term)*
permission_term  = arrow_expr | "(" permission_expr ")" | identifier
arrow_expr       = identifier "->" identifier
union_op         = "+"
intersection_op  = "&"
exclusion_op     = "-", not before ">"
identifier       = a lower case letter, then lower case letters, digits and underscores
```

Trivia may stand between all elements, and also between `-` and the check that
no `>` follows.  A keyword needs no blank after it.

The grammar says nothing about precedence.  An expression is read as a chain of
terms and operators, and what a chain means is settled afterwards.
-/

namespace Rebac.Language

open Rebac.Language.Parser

/-- An operator between terms. -/
inductive Operator where
  | union
  | intersection
  | exclusion
  deriving Repr, DecidableEq

/-- An expression as it was written. -/
inductive Tree where
  /-- A name. -/
  | name (source : String)
  /-- An arrow. -/
  | arrow (base target : String)
  /-- A term, then operators each with a term. -/
  | chain (first : Tree) (rest : List (Operator × Tree))
  deriving Repr

/-- An item in the body of a type. -/
inductive Item where
  | relation (r : Relation)
  | permission (name : String) (tree : Tree)
  deriving Repr

/-- A type as it was written. -/
structure Definition where
  /-- The name of the type. -/
  name : String
  /-- The items of its body, in order. -/
  items : List Item
  deriving Repr

/-- Whether a name may begin with a character. -/
def isNameStart (c : Char) : Bool := 'a' ≤ c ∧ c ≤ 'z'

/-- Whether a name may go on with a character. -/
def isNamePart (c : Char) : Bool := isNameStart c ∨ ('0' ≤ c ∧ c ≤ '9') ∨ c = '_'

/-- Reads a name. -/
def identifier : Parser String :=
  rule .identifier fun
    | [] => ⟨none, []⟩
    | c :: text =>
        if isNameStart c then
          ⟨some (String.ofList (c :: text.takeWhile isNamePart), text.dropWhile isNamePart), []⟩
        else ⟨none, []⟩

/-- Reads the subject of a relation. -/
def subjectTypeRef : Parser Subject :=
  rule .subjectTypeRef do
    let type ← identifier
    let relation ← optional do
      skip
      literal "#"
      skip
      identifier
    return ⟨type, relation⟩

/-- Reads the subjects of a relation. -/
def subjectTypeList : Parser (List Subject) :=
  rule .subjectTypeList do
    let first ← subjectTypeRef
    let rest ← many do
      skip
      literal "|"
      skip
      subjectTypeRef
    return first :: rest

/-- Reads a relation. -/
def relationDef : Parser Item :=
  rule .relationDef do
    literal "relation"
    skip
    let name ← identifier
    skip
    literal ":"
    skip
    return .relation ⟨name, ← subjectTypeList⟩

/-- Reads an operator. -/
def operator : Parser Operator :=
  orElse (rule .unionOp do literal "+"; return .union) <|
  orElse (rule .intersectionOp do literal "&"; return .intersection) <|
  rule .exclusionOp do
    literal "-"
    skip
    notBefore ">"
    return .exclusion

/-- Reads an arrow. -/
def arrowExpr : Parser Tree :=
  rule .arrowExpr do
    let base ← identifier
    skip
    literal "->"
    skip
    return .arrow base (← identifier)

/-- Reads a term, given how to read an expression in parentheses. -/
def permissionTerm (expr : Parser Tree) : Parser Tree :=
  rule .permissionTerm <|
    orElse arrowExpr <|
    orElse (do
      literal "("
      skip
      let tree ← expr
      skip
      literal ")"
      return tree) <|
    do return .name (← identifier)

/-- A term with the operators and terms that follow it. -/
def Tree.ofTerms (first : Tree) : List (Operator × Tree) → Tree
  | [] => first
  | rest => .chain first rest

/-- Reads an expression in which parentheses are nested less than `depth`
deep. -/
def permissionExpr : (depth : Nat) → Parser Tree
  | 0 => fail
  | depth + 1 =>
      rule .permissionExpr do
        let first ← permissionTerm (permissionExpr depth)
        let rest ← many do
          skip
          let op ← operator
          skip
          return (op, ← permissionTerm (permissionExpr depth))
        return first.ofTerms rest

/-- Reads a permission.  Every parenthesis takes a character, so the length of
the text bounds how deep they are nested. -/
def permissionDef : Parser Item :=
  rule .permissionDef do
    literal "permission"
    skip
    let name ← identifier
    skip
    literal "="
    skip
    let tree ← fun text => permissionExpr (text.length + 1) text
    return .permission name tree

/-- Reads the body of a type. -/
def definitionBody : Parser (List Item) :=
  rule .definitionBody do
    literal "\x7b"
    skip
    let items ← manySpaced (orElse relationDef permissionDef)
    skip
    literal "\x7d"
    return items

/-- Reads a type. -/
def definition : Parser Definition :=
  rule .definition do
    literal "definition"
    skip
    let name ← identifier
    skip
    return ⟨name, ← definitionBody⟩

/-- Succeeds at the end of the text. -/
def endOfInput : Parser Unit :=
  rule .endOfInput fun
    | [] => ⟨some ((), []), []⟩
    | _ :: _ => ⟨none, []⟩

/-- Reads a whole schema text. -/
def schemaText : Parser (List Definition) :=
  rule .schema do
    skip
    let definitions ← manySpaced definition
    skip
    endOfInput
    return definitions

end Rebac.Language
