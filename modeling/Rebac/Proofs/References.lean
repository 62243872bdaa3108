import Mathlib.Data.List.Basic
import Rebac.Proofs.Search
import Rebac.Proofs.Translation

/-!
# References

What an expression refers to can be said without its steps: by the names and arrows
that it contains, at any depth.  `Schema.Refers` is the graph of direct references
between permissions.

The steps agree with it as far as they go.  Every need is a reference, and if nothing
is rejected every reference is needed.  So in an emitted schema needs and references are
the same (`Schema.Emits.refers_iff`).

Where names are distinct a lookup finds each declaration, so what is declared and what
is found are the same.
-/

namespace Rebac

/-! ## Distinct names -/

/-- No two types have the same name, nor two relations or two permissions of a type. -/
structure Schema.DistinctNames (s : Schema) : Prop where
  types : (s.types.map (·.name)).Nodup
  relations : ∀ t ∈ s.types, (t.relations.map (·.name)).Nodup
  permissions : ∀ t ∈ s.types, (t.permissions.map (·.name)).Nodup

/-- Names are distinct, and no relation has the name of a permission of its type. -/
structure Schema.Unambiguous (s : Schema) : Prop extends s.DistinctNames where
  apart : ∀ t ∈ s.types, ∀ r ∈ t.relations, ∀ p ∈ t.permissions, r.name ≠ p.name

/-- Among distinct keys a lookup finds what has the key. -/
theorem find?_eq_some_iff_of_nodup {α : Type} (key : α → String) {l : List α}
    (h : (l.map key).Nodup) {a : α} {k : String} :
    l.find? (key · == k) = some a ↔ a ∈ l ∧ key a = k := by
  constructor
  · intro hfind
    exact ⟨List.mem_of_find?_eq_some hfind, by simpa using List.find?_some hfind⟩
  · rintro ⟨hmem, rfl⟩
    induction l with
    | nil => cases hmem
    | cons b l ih =>
        simp only [List.map_cons, List.nodup_cons] at h
        rcases List.mem_cons.mp hmem with rfl | hmem
        · simp
        · have hne : key b ≠ key a := fun heq => h.1 (heq ▸ List.mem_map_of_mem hmem)
          simpa [List.find?_cons, hne] using ih h.2 hmem

section Lookups

variable {s : Schema} {t : ObjectType} {n : String}

theorem Schema.DistinctNames.type?_eq (h : s.DistinctNames) :
    s.type? n = some t ↔ t ∈ s.types ∧ t.name = n :=
  find?_eq_some_iff_of_nodup ObjectType.name h.types

theorem Schema.DistinctNames.relation?_eq (h : s.DistinctNames) (ht : t ∈ s.types) {r : Relation} :
    t.relation? n = some r ↔ r ∈ t.relations ∧ r.name = n :=
  find?_eq_some_iff_of_nodup Relation.name (h.relations t ht)

theorem Schema.DistinctNames.permission?_eq (h : s.DistinctNames) (ht : t ∈ s.types)
    {p : Permission} : t.permission? n = some p ↔ p ∈ t.permissions ∧ p.name = n :=
  find?_eq_some_iff_of_nodup Permission.name (h.permissions t ht)

/-- In an unambiguous schema each permission is found where it is declared. -/
theorem Schema.Unambiguous.find_permission (h : s.Unambiguous) (ht : t ∈ s.types) {p : Permission}
    (hp : p ∈ t.permissions) : s.find ⟨t.name, p.name⟩ = .permission t p := by
  refine Schema.find_eq_permission_iff.mpr ⟨h.type?_eq.mpr ⟨ht, rfl⟩, ?_,
    (h.permission?_eq ht).mpr ⟨hp, rfl⟩⟩
  rw [ObjectType.relation?, List.find?_eq_none]
  intro r hr
  simpa using h.apart t ht r hr p hp

/-- In an unambiguous schema what is declared as a permission is found as one. -/
theorem Schema.Unambiguous.isPermission_iff (h : s.Unambiguous) {m : Member} :
    s.IsPermission m ↔ m ∈ s.permissionMembers := by
  constructor
  · rintro ⟨t, p, hfind⟩
    exact Schema.mem_permissionMembers hfind
  · intro hm
    obtain ⟨t, ht, hm⟩ := List.mem_flatMap.mp hm
    obtain ⟨p, hp, rfl⟩ := List.mem_map.mp hm
    exact ⟨t, p, h.find_permission ht hp⟩

end Lookups

/-! ## Parts at any depth -/

/-- The first expression contains the second one, at some depth. -/
inductive Expr.Contains : Expr → Expr → Prop where
  | self {e : Expr} : Contains e e
  | union {es : List Expr} {e x : Expr} : e ∈ es → Contains e x → Contains (.union es) x
  | intersection {es : List Expr} {e x : Expr} :
      e ∈ es → Contains e x → Contains (.intersection es) x
  | base {e f x : Expr} : Contains e x → Contains (.exclusion e f) x
  | excluded {e f x : Expr} : Contains f x → Contains (.exclusion e f) x

theorem Expr.Contains.trans {e x y : Expr} (h : e.Contains x) (h' : x.Contains y) :
    e.Contains y := by
  induction h with
  | self => exact h'
  | union he _ ih => exact .union he (ih h')
  | intersection he _ ih => exact .intersection he (ih h')
  | base _ ih => exact .base (ih h')
  | excluded _ ih => exact .excluded (ih h')

theorem Expr.Expands.contains {d d' : String} {e x : Expr} {π : List Turn}
    (h : e.Expands d π d' x) : e.Contains x := by
  induction h with
  | here => exact .self
  | union hi _ ih => exact .union (List.mem_of_getElem? hi) ih
  | meet hi _ _ ih => exact .intersection (List.mem_of_getElem? hi) ih

/-- The operands of an intersection take their steps, apart from the copy of a name: the
intersection refers to the name itself. -/
theorem Expr.operand_steps {t : ObjectType} {d : String} {a b e : Expr} (he : e ∈ [a, b]) :
    ∃ d', ∀ step ∈ e.steps t d',
      (∃ r, step = .copy r) ∨ step ∈ (Expr.intersection [a, b]).steps t d := by
  rcases e.isComposite_or_name with hcomp | ⟨source, rfl⟩
  · rcases List.mem_cons.mp he with rfl | he
    · exact ⟨operandName d 0, fun step hstep =>
        .inr (Expr.mem_steps_intersection.mpr (.inr (.inl ⟨hcomp, hstep⟩)))⟩
    · obtain rfl := List.mem_singleton.mp he
      exact ⟨operandName d 1, fun step hstep =>
        .inr (Expr.mem_steps_intersection.mpr (.inr (.inr ⟨hcomp, hstep⟩)))⟩
  · refine ⟨d, fun step hstep => ?_⟩
    cases Expr.mem_steps_name.mp hstep with
    | need => exact .inr (Expr.mem_steps_intersection.mpr (.inl (.operand he)))
    | copy => exact .inl ⟨_, rfl⟩

/-- If nothing is rejected, each part takes its steps for some name, apart from copies. -/
theorem Expr.Contains.steps {t : ObjectType} {e x : Expr} (h : e.Contains x) {d : String}
    (hok : ∀ err, .reject err ∉ e.steps t d) :
    ∃ d', ∀ step ∈ x.steps t d', (∃ r, step = .copy r) ∨ step ∈ e.steps t d := by
  induction h generalizing d with
  | self => exact ⟨d, fun step hstep => .inr hstep⟩
  | @union es e x he _ ih =>
      have hsub : ∀ step ∈ e.steps t d, step ∈ (Expr.union es).steps t d := fun step hstep =>
        Expr.mem_steps_union.mpr (.inr ⟨e, he, hstep⟩)
      obtain ⟨d', hd'⟩ := ih fun err herr => hok err (hsub _ herr)
      exact ⟨d', fun step hstep => (hd' step hstep).imp_right (hsub step)⟩
  | @intersection es e x he _ ih =>
      by_cases hlength : es.length = 2
      · obtain ⟨a, b, rfl⟩ := List.length_eq_two.mp hlength
        obtain ⟨d', hd'⟩ := Expr.operand_steps (t := t) (d := d) he
        have hok' : ∀ err, .reject err ∉ e.steps t d' := by
          intro err herr
          rcases hd' _ herr with ⟨r, hr⟩ | herr
          · cases hr
          · exact hok err herr
        obtain ⟨d'', hd''⟩ := ih hok'
        refine ⟨d'', fun step hstep => ?_⟩
        rcases hd'' step hstep with hcopy | hstep
        · exact .inl hcopy
        · exact hd' step hstep
      · exact absurd ((Expr.mem_steps_of_length_ne hlength).mpr (.operandCount hlength)) (hok _)
  | base => exact absurd List.mem_cons_self (hok _)
  | excluded => exact absurd List.mem_cons_self (hok _)

/-! ## Direct references -/

/-- The expression, declared by the type, refers to the member: by a name on the same
type, or by an arrow on a type that its base leads to. -/
inductive Expr.Mentions (t : ObjectType) (e : Expr) : Member → Prop where
  | name {source : String} : e.Contains (.name source) → Mentions t e ⟨t.name, source⟩
  | arrow {base target : String} {r : Relation} {u : Subject} : e.Contains (.arrow base target) →
      t.relation? base = some r → u ∈ r.subjects → Mentions t e ⟨u.type, target⟩

/-- The first permission refers to the second one in its expression. -/
def Schema.Refers (s : Schema) (m n : Member) : Prop :=
  ∃ t p, s.find m = .permission t p ∧ p.expr.Mentions t n ∧ s.IsPermission n

/-- What is needed is mentioned. -/
theorem Expr.mentions_of_mem_steps {t : ObjectType} {e : Expr} {d : String} {n origin : Member}
    (h : .need n origin ∈ e.steps t d) : e.Mentions t n := by
  obtain ⟨π, d', x, hx, htakes⟩ := Expr.mem_steps_iff.mp h
  have hcontains := hx.contains
  cases htakes with
  | need => exact .name hcontains
  | target hbase hu => exact .arrow hcontains hbase hu
  | operand hsource => exact .name (hcontains.trans (.intersection hsource .self))

/-- If nothing is rejected, what is mentioned is needed. -/
theorem Expr.Mentions.mem_steps {t : ObjectType} {e : Expr} {n : Member} (h : e.Mentions t n)
    {d : String} (hok : ∀ err, .reject err ∉ e.steps t d) :
    ∃ origin, .need n origin ∈ e.steps t d := by
  -- A need is no copy, so it is among the steps of the whole expression.
  have take : ∀ {x : Expr}, e.Contains x →
      (∀ d', ∃ origin, .need n origin ∈ x.steps t d') → ∃ origin, .need n origin ∈ e.steps t d := by
    intro x hx hneed
    obtain ⟨d', hd'⟩ := hx.steps hok
    obtain ⟨origin, horigin⟩ := hneed d'
    rcases hd' _ horigin with ⟨r, hr⟩ | hstep
    · cases hr
    · exact ⟨origin, hstep⟩
  cases h with
  | name hx => exact take hx fun d' => ⟨_, Expr.mem_steps_name.mpr .need⟩
  | arrow hx hbase hu => exact take hx fun d' => ⟨_, Expr.mem_steps_arrow.mpr (.target hbase hu)⟩

theorem Schema.refers_of_mem_needs {s : Schema} {m n : Member} (h : n ∈ s.needs m) :
    s.Refers m n := by
  obtain ⟨hperm, origin, hneed⟩ := Schema.mem_needs.mp h
  obtain ⟨t, p, hfind, hstep⟩ := Schema.of_mem_ownSteps hneed
  exact ⟨t, p, hfind, Expr.mentions_of_mem_steps hstep, hperm⟩

theorem Schema.Refers.mem_needs {s : Schema} {m n : Member} (h : s.Refers m n)
    (hok : ∀ err, .reject err ∉ s.ownSteps m) : n ∈ s.needs m := by
  obtain ⟨t, p, hfind, hmentions, hperm⟩ := h
  rw [Schema.ownSteps_of_find hfind] at hok
  obtain ⟨origin, hneed⟩ := hmentions.mem_steps hok
  rw [← Schema.ownSteps_of_find hfind] at hneed
  exact Schema.mem_needs.mpr ⟨hperm, origin, hneed⟩

theorem Schema.Reaches.refers {s : Schema} {m n : Member} (h : s.Reaches m n) :
    Relation.TransGen s.Refers m n :=
  Relation.TransGen.mono (fun _ _ => Schema.refers_of_mem_needs) m n h

/-- In an emitted schema references and needs are the same. -/
theorem Schema.Emits.refers_iff {s : Schema} {order : List Member} (h : s.Emits order)
    {m n : Member} : s.Refers m n ↔ n ∈ s.needs m := by
  constructor
  · intro hrefers
    have hm : m ∈ order := by
      obtain ⟨t, p, hfind, _⟩ := hrefers
      exact h.mem m ⟨t, p, hfind⟩
    exact hrefers.mem_needs fun err herr => h.passed m hm _ herr
  · exact Schema.refers_of_mem_needs

theorem Schema.Emits.reaches_iff {s : Schema} {order : List Member} (h : s.Emits order)
    {m n : Member} : s.Reaches m n ↔ Relation.TransGen s.Refers m n := by
  constructor
  · exact Schema.Reaches.refers
  · exact Relation.TransGen.mono (fun _ _ => h.refers_iff.mp) m n

end Rebac
