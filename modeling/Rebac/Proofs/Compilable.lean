import Rebac.Proofs.Grants
import Rebac.Proofs.Listing
import Rebac.Proofs.References

/-!
# The schemas that compile

Which schemas compile can be said without the compiler.  No declared name holds the
separator.  Every part of every expression has a form that rules can say, and refers to
names that are declared.  And unless recursion is allowed, no permission refers to itself
through others.

That a compiled schema has these properties is read off what was emitted.  In the other
direction the search finds no error among permissions whose parts are all in order, since
an error would stand at the end of a trail and every step there is passed.
-/

namespace Rebac

/-! ## Parts in order -/

/-- The type declares a relation or a permission of that name. -/
def ObjectType.Has (t : ObjectType) (n : String) : Prop :=
  (∃ r ∈ t.relations, r.name = n) ∨ ∃ p ∈ t.permissions, p.name = n

/-- Rules can say an expression of this form, whatever its operands are. -/
def Expr.IsSupported : Expr → Prop
  | .name _ => True
  | .arrow _ _ => True
  | .union es => es ≠ []
  | .intersection es => es.length = 2
  | .exclusion _ _ => False

/-- What the expression refers to, apart from its operands, is declared: a name by its
type, the base of an arrow as a relation of its type, and the target of an arrow by every
type that the base leads to. -/
def Expr.IsResolved (s : Schema) (t : ObjectType) : Expr → Prop
  | .name source => t.Has source
  | .arrow base target => ∃ r ∈ t.relations, r.name = base ∧
      ∀ u ∈ r.subjects, ∃ t' ∈ s.types, t'.name = u.type ∧ t'.Has target
  | _ => True

/-- A schema that can be compiled. -/
structure Schema.Compilable (s : Schema) (recursive : Bool) : Prop where
  unreserved : ∀ t ∈ s.types, ∀ n ∈ t.declaredNames, separator ∉ n.toList
  supported : ∀ t ∈ s.types, ∀ p ∈ t.permissions, ∀ e, p.expr.Contains e → e.IsSupported
  resolved : ∀ t ∈ s.types, ∀ p ∈ t.permissions, ∀ e, p.expr.Contains e → e.IsResolved s t
  acyclic : recursive = false → ∀ m, ¬ Relation.TransGen s.Refers m m

section

variable {s : Schema} {t : ObjectType}

/-- With distinct names a member is found if its type has its name. -/
theorem Schema.DistinctNames.isDeclared_iff (h : s.DistinctNames) {m : Member} :
    s.IsRelation m ∨ s.IsPermission m ↔ ∃ t ∈ s.types, t.name = m.type ∧ t.Has m.name := by
  constructor
  · rintro (⟨r, hfind⟩ | ⟨t, p, hfind⟩)
    · obtain ⟨t, htype, hrel⟩ := Schema.find_eq_relation_iff.mp hfind
      obtain ⟨ht, hname⟩ := h.type?_eq.mp htype
      exact ⟨t, ht, hname, .inl ⟨r, (h.relation?_eq ht).mp hrel⟩⟩
    · obtain ⟨ht, htn, hp, hpn⟩ := Schema.of_find_permission hfind
      exact ⟨t, ht, htn, .inr ⟨p, hp, hpn⟩⟩
  · rintro ⟨t, ht, hname, hhas⟩
    have htype := h.type?_eq.mpr ⟨ht, hname⟩
    cases hrel : t.relation? m.name with
    | some r => exact .inl ⟨r, Schema.find_eq_relation_iff.mpr ⟨t, htype, hrel⟩⟩
    | none =>
        rcases hhas with ⟨r, hr⟩ | ⟨p, hp⟩
        · simp [(h.relation?_eq ht).mpr hr] at hrel
        · have hperm := (h.permission?_eq ht).mpr hp
          exact .inr ⟨t, p, Schema.find_eq_permission_iff.mpr ⟨htype, hrel, hperm⟩⟩

/-- What stands on a declared type is found if that type has its name. -/
theorem Schema.DistinctNames.isDeclared_iff_has (h : s.DistinctNames) (ht : t ∈ s.types)
    {n : String} : s.IsRelation ⟨t.name, n⟩ ∨ s.IsPermission ⟨t.name, n⟩ ↔ t.Has n := by
  rw [h.isDeclared_iff]
  constructor
  · rintro ⟨t', ht', hname, hhas⟩
    have heq := (h.type?_eq.mpr ⟨ht', hname⟩).symm.trans (h.type?_eq.mpr ⟨ht, rfl⟩)
    cases heq
    exact hhas
  · exact fun hhas => ⟨t, ht, rfl, hhas⟩

theorem Step.passed_need_iff {m origin : Member} :
    (Step.need m origin).Passed s s.IsPermission ↔ s.IsRelation m ∨ s.IsPermission m := by
  simp [Step.Passed]

/-- An expression whose steps are passed is in order, apart from its operands. -/
theorem Schema.DistinctNames.of_passed (h : s.DistinctNames) (ht : t ∈ s.types) {x : Expr}
    {d : String} (hpassed : ∀ step ∈ x.steps t d, step.Passed s s.IsPermission) :
    x.IsSupported ∧ x.IsResolved s t := by
  cases x with
  | name source =>
      have hneed := hpassed _ (Expr.mem_steps_name.mpr .need)
      exact ⟨trivial, (h.isDeclared_iff_has ht).mp (Step.passed_need_iff.mp hneed)⟩
  | arrow base target =>
      refine ⟨trivial, ?_⟩
      cases hbase : t.relation? base with
      | none => exact absurd (hpassed _ (Expr.mem_steps_arrow.mpr (.noRelation hbase))) id
      | some r =>
          obtain ⟨hr, hname⟩ := (h.relation?_eq ht).mp hbase
          refine ⟨r, hr, hname, fun u hu => ?_⟩
          have hneed := hpassed _ (Expr.mem_steps_arrow.mpr (.target hbase hu))
          exact h.isDeclared_iff.mp (Step.passed_need_iff.mp hneed)
  | union es =>
      refine ⟨?_, trivial⟩
      rintro rfl
      exact hpassed _ List.mem_cons_self
  | intersection es =>
      refine ⟨?_, trivial⟩
      by_cases hlength : es.length = 2
      · exact hlength
      · exact absurd
          (hpassed _ ((Expr.mem_steps_of_length_ne hlength).mpr (.operandCount hlength))) id
  | exclusion e f => exact absurd (hpassed _ List.mem_cons_self) id

/-- The steps of an expression are passed if and only if all its parts are in order. -/
theorem Schema.DistinctNames.passed_iff (h : s.DistinctNames) (ht : t ∈ s.types) {e : Expr}
    {d : String} : (∀ step ∈ e.steps t d, step.Passed s s.IsPermission) ↔
      ∀ x, e.Contains x → x.IsSupported ∧ x.IsResolved s t := by
  constructor
  · intro hpassed x hx
    obtain ⟨d', hd'⟩ := hx.steps fun err herr => hpassed _ herr
    apply h.of_passed ht
    intro step hstep
    -- A name that is an operand of an intersection is needed but not copied.
    rcases hd' step hstep with ⟨r, rfl⟩ | hstep
    · trivial
    · exact hpassed step hstep
  · intro hparts step hstep
    obtain ⟨π, d', x, hx, htakes⟩ := Expr.mem_steps_iff.mp hstep
    have hname : ∀ {source origin}, e.Contains (.name source) →
        (Step.need ⟨t.name, source⟩ origin).Passed s s.IsPermission := fun hsource =>
      Step.passed_need_iff.mpr ((h.isDeclared_iff_has ht).mpr (hparts _ hsource).2)
    obtain ⟨hsupported, hresolved⟩ := hparts x hx.contains
    cases htakes with
    | need => exact hname hx.contains
    | operand hsource => exact hname (hx.contains.trans (.intersection hsource .self))
    | target hbase hu =>
        obtain ⟨r, hr, hrname, hsubjects⟩ := hresolved
        cases hbase.symm.trans ((h.relation?_eq ht).mpr ⟨hr, hrname⟩)
        exact Step.passed_need_iff.mpr (h.isDeclared_iff.mpr (hsubjects _ hu))
    | noRelation hbase =>
        obtain ⟨r, hr, hrname, _⟩ := hresolved
        cases hbase.symm.trans ((h.relation?_eq ht).mpr ⟨hr, hrname⟩)
    | copy => trivial
    | hop => trivial
    | meet => trivial
    | emptyUnion => exact hsupported rfl
    | operandCount hlength => exact hlength hsupported
    | exclusion => exact hsupported

end

/-! ## Compiling -/

theorem Schema.reservedName?_eq_none_iff {s : Schema} :
    s.reservedName? = none ↔ ∀ t ∈ s.types, ∀ n ∈ t.declaredNames, separator ∉ n.toList := by
  simp only [Schema.reservedName?, List.findSome?_eq_none_iff, Option.map_eq_none_iff,
    List.find?_eq_none, Schema.sortedTypes, List.mem_mergeSort, isReserved, List.contains_iff_mem]

/-- A visit succeeds if the search finds no error. -/
theorem Resolver.Sound.exists_order {r : Resolver} (h : r.Sound) {m : Member}
    (hclear : r.schema.firstError r.recursive [] [.need m m] = none) :
    ∃ members, (r.order m).1 = .ok members := by
  obtain ⟨memory, hfollow⟩ := h.exists_follow_eq_ok_iff.mpr hclear
  rw [Resolver.order, hfollow]
  exact ⟨_, rfl⟩

theorem Resolver.Sound.exists_emission {r : Resolver} (h : r.Sound) {todo : List Member}
    (hclear : ∀ m ∈ todo, r.schema.firstError r.recursive [] [.need m m] = none)
    (emitted : List Member) : ∃ order, r.emission emitted todo = .ok order := by
  induction todo generalizing r emitted with
  | nil => exact ⟨emitted, rfl⟩
  | cons m ms ih =>
      obtain ⟨members, hmembers⟩ := h.exists_order (hclear m List.mem_cons_self)
      have hnext := h.order m
      rw [Resolver.emission]
      rcases horder : r.order m with ⟨answer, r'⟩
      rw [horder] at hmembers hnext
      subst hmembers
      apply ih hnext
      have hschema : r'.schema = r.schema := by rw [← r.schema_order m, horder]
      have hrec : r'.recursive = r.recursive := by rw [← r.recursive_order m, horder]
      rw [hschema, hrec]
      exact fun n hn => hclear n (List.mem_cons_of_mem m hn)

section Compile

variable {s : Schema} {recursive : Bool}

theorem Schema.Compilable.exists_emission (hs : s.Unambiguous) (h : s.Compilable recursive) :
    ∃ order, s.emission recursive = .ok order := by
  have hown : ∀ m, s.IsPermission m → ∀ step ∈ s.ownSteps m, step.Passed s s.IsPermission := by
    rintro m ⟨t, p, hfind⟩
    obtain ⟨ht, _, hp, _⟩ := Schema.of_find_permission hfind
    rw [Schema.ownSteps_of_find hfind]
    exact (hs.passed_iff ht).mpr fun x hx => ⟨h.supported t ht p hp x hx, h.resolved t ht p hp x hx⟩
  have hacyclic : recursive = false → ∀ m, ¬ s.Reaches m m := fun hrec m hreach =>
    h.acyclic hrec m hreach.refers
  rw [Schema.emission, Schema.reservedName?_eq_none_iff.mpr h.unreserved]
  apply (Resolver.sound_fresh s recursive).exists_emission
  intro m hm
  have hperm := hs.isPermission_iff.mpr (Schema.mem_sortedMembers_iff.mp hm)
  -- The declared permissions need nothing but each other and relations.
  refine Schema.firstError_eq_none s.IsPermission ?_ (fun n hn _ => hown n hn) ?_
  · simpa [Step.passed_need_iff] using Or.inr hperm
  · exact fun hrec n _ => ⟨List.not_mem_nil, hacyclic hrec n⟩

theorem Schema.compilable_of_emission (hs : s.Unambiguous) {order : List Member}
    (h : s.emission recursive = .ok order) : s.Compilable recursive := by
  have hemits := Schema.emission_emits h
  have hparts : ∀ t ∈ s.types, ∀ p ∈ t.permissions, ∀ e, p.expr.Contains e →
      e.IsSupported ∧ e.IsResolved s t := by
    intro t ht p hp
    have hfind := hs.find_permission ht hp
    have hpassed := hemits.passed _ (hemits.mem _ ⟨t, p, hfind⟩)
    rw [Schema.ownSteps_of_find hfind] at hpassed
    exact (hs.passed_iff ht).mp fun step hstep => (hpassed step hstep).mono hemits.isPermission
  constructor
  · intro t ht n hn
    exact separator_not_mem (Schema.not_isReserved_of_emission h ht hn)
  · exact fun t ht p hp e he => (hparts t ht p hp e he).1
  · exact fun t ht p hp e he => (hparts t ht p hp e he).2
  · intro hrec m hcycle
    obtain ⟨k, _, t, p, _, _, hperm⟩ := Relation.TransGen.tail'_iff.mp hcycle
    exact (Schema.lists_emission h).acyclic hrec m (hemits.mem m hperm)
      (hemits.reaches_iff.mpr hcycle)

/-- A schema compiles if and only if it is compilable. -/
theorem Schema.exists_compile_iff_compilable (hs : s.Unambiguous) :
    (∃ b, s.compile recursive = .ok b) ↔ s.Compilable recursive := by
  constructor
  · rintro ⟨b, hb⟩
    obtain ⟨order, horder, _⟩ := Schema.emission_of_compile hb
    exact Schema.compilable_of_emission hs horder
  · intro h
    obtain ⟨order, horder⟩ := h.exists_emission hs
    exact ⟨s.ruleBase order, by rw [Schema.compile_eq, horder]; rfl⟩

end Compile

/-- Nested folders compile if recursion is allowed, and only then. -/
theorem nestedFolders_compilable : nestedFolders.Unambiguous ∧ nestedFolders.Compilable true ∧
    ¬ nestedFolders.Compilable false := by
  have hs : nestedFolders.Unambiguous := ⟨⟨by decide, by decide, by decide⟩, by decide⟩
  have hcycle : nestedFolders.compile false =
      .error (.cycle ⟨"f", "w"⟩ [⟨"f", "w"⟩, ⟨"f", "w"⟩]) := by cbv
  refine ⟨hs, (Schema.exists_compile_iff_compilable hs).mp ⟨nestedFolderRules, by cbv⟩, ?_⟩
  intro h
  obtain ⟨b, hb⟩ := (Schema.exists_compile_iff_compilable hs).mpr h
  rw [hcycle] at hb
  cases hb

end Rebac
