import Rebac.Schema

/-!
# Rules

The compiler turns a schema into three flat tables.

* A *restriction* says that a relation of a type accepts a kind of subject.
* A *unary rule* derives a name from another name on the same object.
* A *binary rule* derives a name from two names.  If it comes from an arrow,
  the second name leads from the object to another one and the first name is
  looked up there.  If it comes from an intersection, both names are looked up
  on the same object.

Each has a text form in the manner of a logic program.
-/

namespace Rebac

/-- A row of the restriction table. -/
structure Restriction where
  /-- The type that declares the relation. -/
  resourceType : String
  /-- The relation. -/
  relation : String
  /-- The type of the subject. -/
  subjectType : String
  /-- The relation the subject holds, if any. -/
  subjectRelation : Option String
  deriving Repr, DecidableEq, Inhabited

/-- `derived` holds where `source` holds, on one object. -/
structure UnaryRule where
  type : String
  source : String
  derived : String
  deriving Repr, DecidableEq, Inhabited

/-- `derived` holds on an object of the second type, by a name on the first
type and a name on the second. -/
structure BinaryRule where
  /-- The type on which the first name is looked up. -/
  firstType : String
  /-- The first name of the body. -/
  first : String
  /-- The type on which the second name is looked up and the head is derived. -/
  secondType : String
  /-- The second name of the body. -/
  second : String
  /-- The name in the head. -/
  derived : String
  deriving Repr, DecidableEq, Inhabited

/-- A compiled schema. -/
structure RuleBase where
  restrictions : List Restriction
  unary : List UnaryRule
  binary : List BinaryRule
  deriving Repr, DecidableEq, Inhabited

/-- The number of rows in the three tables. -/
def RuleBase.size (b : RuleBase) : Nat :=
  b.restrictions.length + b.unary.length + b.binary.length

/-- Whether all three tables are empty. -/
def RuleBase.isEmpty (b : RuleBase) : Bool := b.size == 0

/-- A restriction as a fact, `viewer(group#member, document)`. -/
def Restriction.text (r : Restriction) : String :=
  r.relation ++ "(" ++ Subject.text ⟨r.subjectType, r.subjectRelation⟩ ++ ", " ++
    r.resourceType ++ ")"

/-- An atom `type#name(left, right)` of a clause. -/
def atomText (type name left right : String) : String :=
  Member.text ⟨type, name⟩ ++ "(" ++ left ++ ", " ++ right ++ ")"

/-- A unary rule as a clause. -/
def UnaryRule.text (r : UnaryRule) : String :=
  atomText r.type r.derived "subject" r.type ++ " :- " ++
    atomText r.type r.source "subject" r.type

/-- A binary rule as a clause. -/
def BinaryRule.text (r : BinaryRule) : String :=
  atomText r.secondType r.derived "subject" r.secondType ++ " :- " ++
    atomText r.firstType r.first "subject" r.firstType ++ ", " ++
    atomText r.secondType r.second r.firstType r.secondType

/-- The restriction table of a schema: types by name, relations by name, and
the subjects of a relation in order of declaration. -/
def Schema.restrictions (s : Schema) : List Restriction :=
  s.sortedTypes.flatMap fun t =>
    t.sortedRelations.flatMap fun r =>
      r.subjects.map fun u => ⟨t.name, r.name, u.type, u.relation⟩

end Rebac
