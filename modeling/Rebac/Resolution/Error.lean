import Rebac.Schema

/-!
# Compile errors

A schema is rejected at the first construct that has no rules: a name that is
not declared, an expression that unary and binary rules cannot say, a declared
name with the character reserved for synthesized names, or, unless recursion
is allowed, a permission that reaches itself.
-/

namespace Rebac

/-- Why an expression has no rules. -/
inductive Unsupported where
  /-- A union without operands. -/
  | emptyUnion
  /-- An intersection of a number of operands other than two. -/
  | operandCount (found : Nat)
  /-- An exclusion. -/
  | exclusion
  deriving Repr, DecidableEq

/-- The form of the expression that is not supported. -/
def Unsupported.kind : Unsupported → String
  | .emptyUnion => "union"
  | .operandCount _ => "intersection"
  | .exclusion => "exclusion"

/-- The reason in words. -/
def Unsupported.reason : Unsupported → String
  | .emptyUnion => "union requires at least one operand"
  | .operandCount n => "intersection requires exactly 2 operands, found " ++ toString n
  | .exclusion => "exclusion cannot be expressed as unary or binary rules"

/-- Why a schema, or a name of it, has no rules. -/
inductive CompileError where
  /-- A reference from `origin` leads to a type that is not declared. -/
  | undefinedType (type : String) (origin : Member)
  /-- The base of an arrow in the expression of `owner` is no relation of the
  type. -/
  | undefinedRelation (owner : Member) (relation : String)
  /-- A reference from `origin` leads to a name its type does not declare. -/
  | undefinedReference (target origin : Member)
  /-- The expression of `owner` cannot be said by rules. -/
  | unsupported (owner : Member) (why : Unsupported)
  /-- A name declared by the type holds the reserved character. -/
  | reservedName (type name : String)
  /-- A permission reaches itself along the path. -/
  | cycle (permission : Member) (path : List Member)
  deriving Repr, DecidableEq

/-- The three families of compile errors. -/
inductive CompileError.Kind where
  /-- A name is missing or not allowed. -/
  | reference
  /-- An expression has no rules. -/
  | unsupported
  /-- A permission reaches itself. -/
  | cycle
  deriving Repr, DecidableEq

/-- The family of an error. -/
def CompileError.kind : CompileError → CompileError.Kind
  | .undefinedType .. | .undefinedRelation .. | .undefinedReference .. | .reservedName .. =>
      .reference
  | .unsupported .. => .unsupported
  | .cycle .. => .cycle

/-- The error in words. -/
def CompileError.message : CompileError → String
  | .undefinedType type origin =>
      "undefined type '" ++ type ++ "' referenced from '" ++ origin.text ++ "'"
  | .undefinedRelation owner relation =>
      "undefined relation '" ++ relation ++ "' on type '" ++ owner.type ++
        "' used as the base of hierarchical permission '" ++ owner.name ++ "'"
  | .undefinedReference target origin =>
      "'" ++ target.name ++ "' is neither a relation nor a permission on type '" ++ target.type ++
        "' (referenced from '" ++ origin.text ++ "')"
  | .unsupported owner why =>
      "unsupported " ++ why.kind ++ " expression in permission '" ++ owner.name ++
        "' on type '" ++ owner.type ++ "': " ++ why.reason
  | .reservedName type name =>
      "name '" ++ name ++ "' on type '" ++ type ++ "' contains the reserved character '$'"
  | .cycle _ path =>
      "cyclic permission reference: " ++ " -> ".intercalate (path.map Member.text)

end Rebac
