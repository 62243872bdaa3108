import Rebac.Resolution.Error
import Rebac.Rule

/-!
# The steps of a permission

The expression of a permission is read from left to right and becomes a list
of *steps*.  A step asks for a name that has to resolve before the next step
(`need`), gives a rule (`copy`, `hop`, `meet`), or says that there is no way on
(`reject`).  The steps of a permission depend on nothing but the type that
declares it: how a needed name resolves changes no rule, since a name is
always referred to by itself.

* A name `s` is needed and then copied.
* An arrow `b->t` needs `t` on every type that `b` leads to and hops there.
  The base has to be a relation of the type.
* A union gives the steps of all its operands, for the same derived name.
* An intersection has two operands.  An operand that is a name is used as it
  is.  Any other operand is derived under a *synthesized* name, the derived
  name followed by `$` and the position of the operand.  Then both names meet.
-/

namespace Rebac

/-- A step on the way from an expression to its rules. -/
inductive Step where
  /-- The name `target` has to resolve.  The reference stands in the
  expression derived as `origin`. -/
  | need (target origin : Member)
  /-- A rule that copies a name on one object. -/
  | copy (rule : UnaryRule)
  /-- A rule that follows a relation to another object. -/
  | hop (rule : BinaryRule)
  /-- A rule that demands two names on one object. -/
  | meet (rule : BinaryRule)
  /-- The expression has no rules. -/
  | reject (error : CompileError)
  deriving Repr, DecidableEq

/-- The character that separates a derived name from an operand's position.
Declared names must not hold it. -/
def separator : Char := '$'

/-- The name under which the operand at a position of an intersection is
derived. -/
def operandName (derived : String) (position : Nat) : String :=
  derived.push separator ++ toString position

/-- The name by which an intersection refers to its operand at a position. -/
def Expr.operandIdentity (derived : String) (position : Nat) : Expr → String
  | .name source => source
  | _ => operandName derived position

/-- The steps that make an operand of an intersection available: a name is
only needed, anything else takes the steps that derive its synthesized name. -/
def Expr.operandSteps (t : ObjectType) (derived : String) (synthesized : List Step) :
    Expr → List Step
  | .name source => [.need ⟨t.name, source⟩ ⟨t.name, derived⟩]
  | _ => synthesized

mutual

/-- The steps of an expression of a type, for rules that derive `derived`. -/
def Expr.steps (t : ObjectType) (derived : String) : Expr → List Step
  | .name source =>
      [.need ⟨t.name, source⟩ ⟨t.name, derived⟩, .copy ⟨t.name, source, derived⟩]
  | .arrow base target =>
      match t.relation? base with
      | none => [.reject (.undefinedRelation ⟨t.name, derived⟩ base)]
      | some r =>
          r.subjects.flatMap fun u =>
            [.need ⟨u.type, target⟩ ⟨t.name, derived⟩,
              .hop ⟨u.type, target, t.name, base, derived⟩]
  | .union [] => [.reject (.unsupported ⟨t.name, derived⟩ .emptyUnion)]
  | .union (e :: es) => e.steps t derived ++ Expr.stepsAll t derived es
  | .intersection [e, f] =>
      e.operandSteps t derived (e.steps t (operandName derived 0)) ++
        f.operandSteps t derived (f.steps t (operandName derived 1)) ++
        [.meet ⟨t.name, e.operandIdentity derived 0, t.name, f.operandIdentity derived 1, derived⟩]
  | .intersection es => [.reject (.unsupported ⟨t.name, derived⟩ (.operandCount es.length))]
  | .exclusion _ _ => [.reject (.unsupported ⟨t.name, derived⟩ .exclusion)]
termination_by structural e => e

/-- The steps of the operands of a union, one after the other. -/
def Expr.stepsAll (t : ObjectType) (derived : String) : List Expr → List Step
  | [] => []
  | e :: es => e.steps t derived ++ Expr.stepsAll t derived es
termination_by structural es => es

end

/-- The unary rules among the steps. -/
def Step.unaryRules (steps : List Step) : List UnaryRule :=
  steps.filterMap fun
    | .copy r => some r
    | _ => none

/-- The binary rules among the steps. -/
def Step.binaryRules (steps : List Step) : List BinaryRule :=
  steps.filterMap fun
    | .hop r | .meet r => some r
    | _ => none

/-- The permissions of the schema that the steps need, in order. -/
def Step.permissions (s : Schema) (steps : List Step) : List Member :=
  steps.filterMap fun
    | .need m _ =>
        match s.find m with
        | .permission _ _ => some m
        | _ => none
    | _ => none

end Rebac
