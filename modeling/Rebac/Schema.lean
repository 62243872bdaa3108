/-!
# Schemas

A schema says which types of objects there are, which relations subjects may
hold on them, and which permissions follow.  A *relation* is stored data, and
lists the subjects it accepts.  A *permission* is computed, by an expression
over the names of its type.

* A name stands for the holders of that name on the same object.
* An arrow `base->target` follows the relation `base` to other objects and
  takes the holders of `target` on them.
* Unions, intersections and exclusions combine expressions.

Everything is an ordered list.  A schema may declare a name twice, and then a
lookup takes the first declaration, a relation before a permission.  Listings
for people and for the compiler are sorted by name, and equal names keep their
order of declaration.
-/

namespace Rebac

/-! ## Expressions -/

/-- The expression of a permission. -/
inductive Expr where
  /-- The holders of a relation or permission on the same object. -/
  | name (source : String)
  /-- The holders of `target` on the objects that `base` leads to. -/
  | arrow (base target : String)
  /-- The subjects of some operand. -/
  | union (operands : List Expr)
  /-- The subjects of every operand. -/
  | intersection (operands : List Expr)
  /-- The subjects of `base` that are not subjects of `excluded`. -/
  | exclusion (base excluded : Expr)
  deriving Repr, BEq, Inhabited

mutual

/-- Equality of expressions is decided by comparing their trees. -/
def Expr.decEq : (e f : Expr) → Decidable (e = f)
  | .name a, .name b => decidable_of_iff (a = b) (by simp)
  | .arrow a b, .arrow c d => decidable_of_iff (a = c ∧ b = d) (by simp)
  | .union as, .union bs =>
      match Expr.decEqList as bs with
      | isTrue h => isTrue (by rw [h])
      | isFalse h => isFalse (by simpa using h)
  | .intersection as, .intersection bs =>
      match Expr.decEqList as bs with
      | isTrue h => isTrue (by rw [h])
      | isFalse h => isFalse (by simpa using h)
  | .exclusion a b, .exclusion c d =>
      match Expr.decEq a c, Expr.decEq b d with
      | isTrue h, isTrue k => isTrue (by rw [h, k])
      | isFalse h, _ => isFalse (by simp [h])
      | _, isFalse k => isFalse (by simp [k])
  | .name _, .arrow _ _ | .name _, .union _ | .name _, .intersection _ | .name _, .exclusion _ _
  | .arrow _ _, .name _ | .arrow _ _, .union _ | .arrow _ _, .intersection _
  | .arrow _ _, .exclusion _ _ | .union _, .name _ | .union _, .arrow _ _
  | .union _, .intersection _ | .union _, .exclusion _ _ | .intersection _, .name _
  | .intersection _, .arrow _ _ | .intersection _, .union _ | .intersection _, .exclusion _ _
  | .exclusion _ _, .name _ | .exclusion _ _, .arrow _ _ | .exclusion _ _, .union _
  | .exclusion _ _, .intersection _ => isFalse (by simp)

/-- Equality of operand lists is decided operand by operand. -/
def Expr.decEqList : (es fs : List Expr) → Decidable (es = fs)
  | [], [] => isTrue rfl
  | [], _ :: _ | _ :: _, [] => isFalse (by simp)
  | e :: es, f :: fs =>
      match Expr.decEq e f, Expr.decEqList es fs with
      | isTrue h, isTrue k => isTrue (by rw [h, k])
      | isFalse h, _ => isFalse (by simp [h])
      | _, isFalse k => isFalse (by simp [k])

end

instance : DecidableEq Expr := Expr.decEq

/-- The form of an expression, in one word. -/
def Expr.kind : Expr → String
  | .name _ => "unary"
  | .arrow _ _ => "hierarchical"
  | .union _ => "union"
  | .intersection _ => "intersection"
  | .exclusion _ _ => "exclusion"

/-! ## Declarations -/

/-- Subjects a relation accepts: the objects of a type, or, with a relation,
those who hold that relation on objects of the type. -/
structure Subject where
  /-- The type of the subject, or of the object it holds a relation on. -/
  type : String
  /-- The relation the subject holds, if any. -/
  relation : Option String
  deriving Repr, DecidableEq, Inhabited

/-- A subject as text, `user` or `group#member`. -/
def Subject.text (s : Subject) : String :=
  match s.relation with
  | none => s.type
  | some r => s.type ++ "#" ++ r

/-- A relation of a type, with the subjects it accepts. -/
structure Relation where
  /-- The name of the relation. -/
  name : String
  /-- The subjects it accepts, in order of declaration. -/
  subjects : List Subject
  deriving Repr, DecidableEq, Inhabited

/-- A permission of a type. -/
structure Permission where
  name : String
  expr : Expr
  deriving Repr, DecidableEq, Inhabited

/-- A type of objects, with what can be held on them. -/
structure ObjectType where
  name : String
  relations : List Relation
  permissions : List Permission
  deriving Repr, DecidableEq, Inhabited

/-- A schema is a list of types, in order of declaration. -/
structure Schema where
  types : List ObjectType
  deriving Repr, DecidableEq, Inhabited

/-! ## Lookups and sorted listings -/

/-- The first relation of that name. -/
def ObjectType.relation? (t : ObjectType) (name : String) : Option Relation :=
  t.relations.find? (·.name == name)

/-- The first permission of that name. -/
def ObjectType.permission? (t : ObjectType) (name : String) : Option Permission :=
  t.permissions.find? (·.name == name)

/-- The first type of that name. -/
def Schema.type? (s : Schema) (name : String) : Option ObjectType :=
  s.types.find? (·.name == name)

/-- The relations by name, equal names in order of declaration. -/
def ObjectType.sortedRelations (t : ObjectType) : List Relation :=
  t.relations.mergeSort fun a b => a.name ≤ b.name

/-- The permissions by name, equal names in order of declaration. -/
def ObjectType.sortedPermissions (t : ObjectType) : List Permission :=
  t.permissions.mergeSort fun a b => a.name ≤ b.name

/-- The types by name, equal names in order of declaration. -/
def Schema.sortedTypes (s : Schema) : List ObjectType :=
  s.types.mergeSort fun a b => a.name ≤ b.name

/-! ## Members -/

/-- A name on a type.  It may or may not be declared. -/
structure Member where
  type : String
  name : String
  deriving Repr, DecidableEq, Inhabited

/-- A member as text, `type#name`. -/
def Member.text (m : Member) : String := m.type ++ "#" ++ m.name

/-- What a schema has for a member. -/
inductive Finding where
  /-- The type is not declared. -/
  | noType
  /-- The type is declared, and has nothing of that name. -/
  | noName
  /-- A relation. -/
  | relation (r : Relation)
  /-- A permission, with the type that declares it. -/
  | permission (owner : ObjectType) (p : Permission)
  deriving Repr, DecidableEq

/-- Looks a member up: the first type of the name, then its first relation,
and only then its first permission. -/
def Schema.find (s : Schema) (m : Member) : Finding :=
  match s.type? m.type with
  | none => .noType
  | some t =>
      match t.relation? m.name with
      | some r => .relation r
      | none =>
          match t.permission? m.name with
          | some p => .permission t p
          | none => .noName

/-- Every permission declared, type by type. -/
def Schema.permissionMembers (s : Schema) : List Member :=
  s.types.flatMap fun t => t.permissions.map fun p => ⟨t.name, p.name⟩

/-- What is found as a permission is declared by a type of the schema under
the name that was asked for. -/
theorem Schema.of_find_permission {s : Schema} {m : Member} {t : ObjectType} {p : Permission}
    (h : s.find m = .permission t p) :
    t ∈ s.types ∧ t.name = m.type ∧ p ∈ t.permissions ∧ p.name = m.name := by
  unfold Schema.find at h
  split at h
  · simp at h
  · rename_i u hu
    split at h
    · simp at h
    · split at h
      · rename_i q hq
        simp only [Finding.permission.injEq] at h
        obtain ⟨rfl, rfl⟩ := h
        have ht := List.find?_some hu
        have hp := List.find?_some hq
        exact ⟨List.mem_of_find?_eq_some hu, by simpa using ht,
          List.mem_of_find?_eq_some hq, by simpa using hp⟩
      · simp at h

/-- What is found as a permission is among the declared permissions. -/
theorem Schema.mem_permissionMembers {s : Schema} {m : Member} {t : ObjectType} {p : Permission}
    (h : s.find m = .permission t p) : m ∈ s.permissionMembers := by
  obtain ⟨ht, htn, hp, hpn⟩ := Schema.of_find_permission h
  refine List.mem_flatMap.mpr ⟨t, ht, List.mem_map.mpr ⟨p, hp, ?_⟩⟩
  rw [htn, hpn]

end Rebac
