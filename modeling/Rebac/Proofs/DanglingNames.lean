import Rebac.Proofs.Grants
import Rebac.Proofs.Rendering

/-!
# No dangling names

A rule looks names up on types.  In a compiled rule base each of these names is a relation
of its type or the head of a rule, provided that every relation accepts some subject.

The proviso is needed for arrows only.  An arrow whose base accepts nobody has no rules, so
nothing would derive its name.  Every other part gives a rule at once or has an operand that
does (`Schema.Emits.mem_derivedMembers`), and what is not supported is not emitted.  A name
that a rule uses is then a relation, a permission, which is a part of itself, or an operand.

A schema that was read from a text keeps the proviso, since the language has no empty list of
subjects.
-/

namespace Rebac

/-- Every relation accepts some subject. -/
def Schema.Restricted (s : Schema) : Prop :=
  ∀ t ∈ s.types, ∀ r ∈ t.relations, r.subjects ≠ []

/-- The names that the rules look up, with the types they are looked up on. -/
def RuleBase.usedMembers (b : RuleBase) : List Member :=
  (b.unary.map fun r => ⟨r.type, r.source⟩) ++
    b.binary.flatMap fun r => [⟨r.firstType, r.first⟩, ⟨r.secondType, r.second⟩]

/-- The names in the heads of the rules, with the types they are derived on. -/
def RuleBase.derivedMembers (b : RuleBase) : List Member :=
  (b.unary.map fun r => ⟨r.type, r.derived⟩) ++
    b.binary.map fun r => ⟨r.secondType, r.derived⟩

theorem RuleBase.mem_usedMembers {b : RuleBase} {m : Member} :
    m ∈ b.usedMembers ↔ (∃ r ∈ b.unary, m = ⟨r.type, r.source⟩) ∨
      ∃ r ∈ b.binary, m = ⟨r.firstType, r.first⟩ ∨ m = ⟨r.secondType, r.second⟩ := by
  simp [RuleBase.usedMembers, eq_comm]

theorem RuleBase.mem_derivedMembers {b : RuleBase} {m : Member} :
    m ∈ b.derivedMembers ↔ (∃ r ∈ b.unary, m = ⟨r.type, r.derived⟩) ∨
      ∃ r ∈ b.binary, m = ⟨r.secondType, r.derived⟩ := by
  simp [RuleBase.derivedMembers, eq_comm]

section Emitted

variable {s : Schema} {order : List Member} {t : ObjectType} {d : String}

/-- A part that gives a rule itself is derived. -/
theorem Schema.Emits.mem_derivedMembers_of_binary (h : s.Emits order) {e : Expr} {r : BinaryRule}
    (he : s.Expands t d e) (htakes : e.Takes t d (.hop r) ∨ e.Takes t d (.meet r)) :
    ⟨r.secondType, r.derived⟩ ∈ (s.ruleBase order).derivedMembers :=
  RuleBase.mem_derivedMembers.mpr (.inr ⟨r, h.mem_binary_iff.mpr ⟨t, d, e, he, htakes⟩, rfl⟩)

/-- Some rule derives the name of every part. -/
theorem Schema.Emits.mem_derivedMembers (h : s.Emits order) (hs : s.Restricted) :
    ∀ {e : Expr} {d : String}, s.Expands t d e →
      ⟨t.name, d⟩ ∈ (s.ruleBase order).derivedMembers
  | .name source, d, he => by
      have hrule := h.mem_unary_iff.mpr ⟨t, d, .name source, he, .copy⟩
      exact RuleBase.mem_derivedMembers.mpr (.inl ⟨_, hrule, rfl⟩)
  | .arrow base target, d, he => by
      cases hbase : t.relation? base with
      | none => exact absurd (h.passed_of_takes he (.noRelation hbase)) id
      | some r =>
          have ht : t ∈ s.types := by
            obtain ⟨m, p, π, hfind, _⟩ := he
            exact (Schema.of_find_permission hfind).1
          -- The base accepts some subject, and the arrow hops there.
          obtain ⟨u, hu⟩ :=
            List.exists_mem_of_ne_nil _ (hs t ht r (List.mem_of_find?_eq_some hbase))
          exact h.mem_derivedMembers_of_binary he (.inl (.hop hbase hu))
  | .union [], d, he => absurd (h.passed_of_takes he .emptyUnion) id
  | .union (e :: es), d, he => h.mem_derivedMembers hs (e := e) (he.union List.mem_cons_self)
  | .intersection es, d, he => by
      obtain ⟨e, f, rfl⟩ := h.intersection_eq he
      exact h.mem_derivedMembers_of_binary he (.inr .meet)
  | .exclusion e f, d, he => absurd (h.passed_of_takes he .exclusion) id

/-- What a part needs is a relation or derived. -/
theorem Schema.Emits.resolved_need (h : s.Emits order) (hs : s.Restricted) {e : Expr}
    {m origin : Member} (he : s.Expands t d e) (htakes : e.Takes t d (.need m origin)) :
    s.IsRelation m ∨ m ∈ (s.ruleBase order).derivedMembers := by
  rcases h.passed_of_takes he htakes with hrel | ⟨⟨t', p, hfind⟩, _⟩
  · exact .inl hrel
  · obtain ⟨_, htype, _, hname⟩ := Schema.of_find_permission hfind
    have hderived := h.mem_derivedMembers hs (Schema.expands_permission hfind)
    rw [htype, hname] at hderived
    exact .inr hderived

/-- The name by which an intersection refers to an operand is a relation or derived. -/
theorem Schema.Emits.resolved_operand (h : s.Emits order) (hs : s.Restricted) {e f g : Expr}
    {i : Nat} (he : s.Expands t d (.intersection [e, f])) (hi : [e, f][i]? = some g) :
    s.IsRelation ⟨t.name, g.operandIdentity d i⟩ ∨
      ⟨t.name, g.operandIdentity d i⟩ ∈ (s.ruleBase order).derivedMembers := by
  rcases g.isComposite_or_name with hg | ⟨source, rfl⟩
  · rw [Expr.operandIdentity_of_isComposite hg]
    exact .inr (h.mem_derivedMembers hs (he.operand hi hg))
  · exact h.resolved_need hs he (.operand (List.mem_of_getElem? hi))

end Emitted

theorem Schema.Writable.restricted {s : Schema} (h : s.Writable) : s.Restricted :=
  fun t ht => (h.members t ht).restricted

/-- The names that a compiled rule base uses are relations, or its rules derive them. -/
theorem Schema.Restricted.resolved {s : Schema} {recursive : Bool} {b : RuleBase}
    (hs : s.Restricted) (h : s.compile recursive = .ok b) {m : Member} (hm : m ∈ b.usedMembers) :
    s.IsRelation m ∨ m ∈ b.derivedMembers := by
  obtain ⟨order, horder, rfl⟩ := Schema.emission_of_compile h
  have hemits := Schema.emission_emits horder
  rcases RuleBase.mem_usedMembers.mp hm with ⟨r, hr, rfl⟩ | ⟨r, hr, hm⟩
  · obtain ⟨t, d, e, he, htakes⟩ := hemits.mem_unary_iff.mp hr
    cases htakes with
    | copy => exact hemits.resolved_need hs he .need
  · obtain ⟨t, d, e, he, htakes | htakes⟩ := hemits.mem_binary_iff.mp hr
    · cases htakes with
      | hop hbase hu =>
          rcases hm with rfl | rfl
          · exact hemits.resolved_need hs he (.target hbase hu)
          · obtain ⟨n, p, π, hfind, _⟩ := he
            exact .inl (Schema.isRelation_base hfind hbase)
    · cases htakes with
      | meet =>
          rcases hm with rfl | rfl
          · exact hemits.resolved_operand hs he (i := 0) rfl
          · exact hemits.resolved_operand hs he (i := 1) rfl

/-- If every relation accepts some subject, as in any schema read from a text, then every name that
a compiled rule base uses is a relation of the type it is looked up on, or some rule of the rule base
derives it on that type. -/
theorem Schema.no_dangling_name (s : Schema) :
    (∀ text, Language.readSchema text = .ok s → s.Restricted) ∧
      (s.Restricted → ∀ recursive b, s.compile recursive = .ok b →
        ∀ m ∈ b.usedMembers, s.IsRelation m ∨ m ∈ b.derivedMembers) := by
  constructor
  · intro text h
    exact (Language.rendering_of_readSchema h).1.restricted
  · intro hs recursive b h m hm
    exact hs.resolved h hm

set_option maxRecDepth 2000 in
theorem readSchema_nestedFolders : Language.readSchema "definition u \x7b\x7d definition f \x7b
    relation p: f relation v: u relation a: u permission w = a & (v + p->w) \x7d" =
      .ok nestedFolders := by
  cbv

/-- In nested folders the target of the arrow is a permission, and an operand of the intersection
has a name of its own. -/
theorem nestedFolders_no_dangling_name : nestedFolders.Restricted ∧
    nestedFolders.compile true = .ok nestedFolderRules ∧
      nestedFolderRules.usedMembers =
        [⟨"f", "v"⟩, ⟨"f", "w"⟩, ⟨"f", "p"⟩, ⟨"f", "a"⟩, ⟨"f", "w$1"⟩] ∧
      ∀ m ∈ nestedFolderRules.usedMembers,
        nestedFolders.IsRelation m ∨ m ∈ nestedFolderRules.derivedMembers := by
  have hs : nestedFolders.Restricted :=
    (Schema.no_dangling_name nestedFolders).1 _ readSchema_nestedFolders
  have h : nestedFolders.compile true = .ok nestedFolderRules := by cbv
  exact ⟨hs, h, by decide, (Schema.no_dangling_name nestedFolders).2 hs true nestedFolderRules h⟩

end Rebac
