import Rebac.Proofs.Following

/-!
# What a schema grants and what rules derive

Relationship data says who holds a relation on an object directly, and which
objects an object is linked to through a relation.  On top of it there are two
readings of a permission.

The schema reads its expression.  `Facts.Grants` and `Facts.Satisfies` are the
least predicates closed under that reading, so a permission that reaches itself
grants nothing by that alone.

A rule base derives facts from facts.  A unary rule copies a name on one object.
A binary rule is a *join*, which follows a link to another object, or a
*conjunction*, which asks for two names on one object.  The record of a binary
rule does not say which, so `RuleBase.Derives` takes the readings that are
allowed as a parameter.  With `Reading.byTypes` a rule whose types are equal is a
conjunction and any other is a join.  With `Reading.lenient` a rule whose types
are equal may be used as either.
-/

namespace Rebac

universe u v

/-- Relationship data over the relations of a schema. -/
structure Facts (s : Schema) (Object : Type u) (Holder : Type v) where
  /-- The holder has the relation on the object directly. -/
  direct : Member → Object → Holder → Prop
  /-- The relation links the object to an object of the given type. -/
  linked : Member → Object → String → Object → Prop
  /-- Only relations are held directly. -/
  isRelation : ∀ m o x, direct m o x → s.IsRelation m

section

variable {s : Schema} {Object : Type u} {Holder : Type v}

mutual

/-- The holder has the name on the object, by the lookups of the schema. -/
inductive Facts.Grants (facts : Facts s Object Holder) : Member → Object → Holder → Prop where
  | relation {m : Member} {r : Relation} {o : Object} {x : Holder} :
      s.find m = .relation r → facts.direct m o x → Grants facts m o x
  | permission {m : Member} {t : ObjectType} {p : Permission} {o : Object} {x : Holder} :
      s.find m = .permission t p → Satisfies facts t p.expr o x → Grants facts m o x

/-- The holder satisfies an expression of the type on the object. -/
inductive Facts.Satisfies (facts : Facts s Object Holder) :
    ObjectType → Expr → Object → Holder → Prop where
  | name {t : ObjectType} {source : String} {o : Object} {x : Holder} :
      Grants facts ⟨t.name, source⟩ o x → Satisfies facts t (.name source) o x
  | arrow {t : ObjectType} {base target : String} {r : Relation} {u : Subject} {o o' : Object}
      {x : Holder} :
      t.relation? base = some r → u ∈ r.subjects → facts.linked ⟨t.name, base⟩ o u.type o' →
        Grants facts ⟨u.type, target⟩ o' x → Satisfies facts t (.arrow base target) o x
  | union {t : ObjectType} {es : List Expr} {e : Expr} {o : Object} {x : Holder} :
      e ∈ es → Satisfies facts t e o x → Satisfies facts t (.union es) o x
  | intersection {t : ObjectType} {es : List Expr} {o : Object} {x : Holder} :
      (∀ e ∈ es, Satisfies facts t e o x) → Satisfies facts t (.intersection es) o x

end

/-- What a lookup finds is all that is granted. -/
theorem Facts.Grants.isDeclared {facts : Facts s Object Holder} {m : Member} {o : Object}
    {x : Holder} (h : facts.Grants m o x) : s.IsRelation m ∨ s.IsPermission m := by
  cases h with
  | relation hfind _ => exact Or.inl ⟨_, hfind⟩
  | permission hfind _ => exact Or.inr ⟨_, _, hfind⟩

/-! ## Derivations from rules -/

/-- How a binary rule is used. -/
inductive Reading where
  /-- The second name links the object to another one, on which the first name is
  looked up. -/
  | join
  /-- Both names are looked up on one object. -/
  | conjunction
  deriving Repr, DecidableEq

/-- Rules of equal types are conjunctions, others are joins. -/
def Reading.byTypes (r : BinaryRule) : Reading → Prop
  | .join => r.firstType ≠ r.secondType
  | .conjunction => r.firstType = r.secondType

/-- Rules of equal types are conjunctions and joins, others are joins. -/
def Reading.lenient (r : BinaryRule) : Reading → Prop
  | .join => True
  | .conjunction => r.firstType = r.secondType

/-- The rules derive that the holder has the name on the object, with each binary
rule used as it may be read. -/
inductive RuleBase.Derives (b : RuleBase) (reads : BinaryRule → Reading → Prop)
    (facts : Facts s Object Holder) : Member → Object → Holder → Prop where
  | fact {m : Member} {o : Object} {x : Holder} :
      facts.direct m o x → Derives b reads facts m o x
  | copy {r : UnaryRule} {o : Object} {x : Holder} :
      r ∈ b.unary → Derives b reads facts ⟨r.type, r.source⟩ o x →
        Derives b reads facts ⟨r.type, r.derived⟩ o x
  | join {r : BinaryRule} {o o' : Object} {x : Holder} :
      r ∈ b.binary → reads r .join → facts.linked ⟨r.secondType, r.second⟩ o r.firstType o' →
        Derives b reads facts ⟨r.firstType, r.first⟩ o' x →
          Derives b reads facts ⟨r.secondType, r.derived⟩ o x
  | meet {r : BinaryRule} {o : Object} {x : Holder} :
      r ∈ b.binary → reads r .conjunction → Derives b reads facts ⟨r.firstType, r.first⟩ o x →
        Derives b reads facts ⟨r.secondType, r.second⟩ o x →
          Derives b reads facts ⟨r.secondType, r.derived⟩ o x

end

end Rebac
