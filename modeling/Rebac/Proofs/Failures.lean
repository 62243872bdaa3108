import Rebac.Proofs.AllowedRecursion
import Rebac.Proofs.Compilable

/-!
# What a compile error blames

Compiling fails before it starts, at a reserved name, or during a visit.  A visit fails where
the search without a memory fails, and that is at the end of a trail.  So an error comes from a
step that fails: a step of a permission, or the visit's own request for a declared permission.

The steps of a permission carry the name they are derived for, and every part of the permission
is derived for a name that starts with the permission itself.  So the blamed name leads back to
the permission, whatever was entered on the way, and the step to the part that takes it.
`Schema.Faults` says what is wrong with that part.
-/

namespace Rebac

variable {s : Schema} {recursive : Bool} {e : CompileError}

/-! ## From an error to a search -/

/-- Visits fail where one of their searches does. -/
theorem Resolver.Sound.firstError_of_emission {r : Resolver} (h : r.Sound)
    {emitted todo : List Member} (herror : r.emission emitted todo = .error e) :
    ∃ m ∈ todo, r.schema.firstError r.recursive [] [.need m m] = some e := by
  induction todo generalizing r emitted with
  | nil => cases herror
  | cons m ms ih =>
      have hvisit := h.order_eq_error_iff (m := m) e
      have hnext := h.order m
      have hschema := r.schema_order m
      have hrec := r.recursive_order m
      rw [Resolver.emission] at herror
      generalize r.order m = visit at herror hvisit hnext hschema hrec
      obtain ⟨answer, next⟩ := visit
      cases answer with
      | error e' =>
          cases herror
          exact ⟨m, List.mem_cons_self, hvisit.mp rfl⟩
      | ok members =>
          obtain ⟨n, hn, hsearch⟩ := ih hnext herror
          rw [hschema, hrec] at hsearch
          exact ⟨n, List.mem_cons_of_mem m hn, hsearch⟩

/-- A call fails where its search does. -/
theorem Resolver.Sound.firstError_of_resolve {r : Resolver} (h : r.Sound) {m : Member}
    (herror : (r.resolve m).1 = .error e) :
    r.schema.firstError r.recursive [] [.need m m] = some e := by
  rw [h.resolve_eq] at herror
  cases horder : (r.order m).1 with
  | ok members => simp [horder, Except.map] at herror
  | error e' =>
      have he : e' = e := by simpa [horder, Except.map] using herror
      exact (h.order_eq_error_iff e).mp (he ▸ horder)

/-- A compile error is a reserved name, or comes from the search of a declared permission. -/
theorem Schema.firstError_of_compile (h : s.compile recursive = .error e) :
    s.reservedName? = some e ∨ (s.reservedName? = none ∧
      ∃ m ∈ s.permissionMembers, s.firstError recursive [] [.need m m] = some e) := by
  rw [Schema.compile_eq, Schema.emission] at h
  cases hreserved : s.reservedName? with
  | some e' =>
      rw [hreserved] at h
      cases h
      exact .inl rfl
  | none =>
      rw [hreserved] at h
      have hfresh := Resolver.sound_fresh s recursive
      cases hemission : Resolver.emission ⟨s, recursive, []⟩ [] s.sortedMembers with
      | ok order => simp [hemission, Except.map] at h
      | error e' =>
          have he : e' = e := by simpa [hemission, Except.map] using h
          subst he
          obtain ⟨m, hm, hsearch⟩ := hfresh.firstError_of_emission hemission
          exact .inr ⟨rfl, m, Schema.mem_sortedMembers_iff.mp hm, hsearch⟩

/-- What is found reserved is reported as such. -/
theorem Schema.exists_of_reservedName? (h : s.reservedName? = some e) :
    ∃ type name, e = .reservedName type name := by
  obtain ⟨t, _, ht⟩ := List.exists_of_findSome?_eq_some h
  obtain ⟨n, _, rfl⟩ := Option.map_eq_some_iff.mp ht
  exact ⟨t.name, n, rfl⟩

/-! ## Lookups that find nothing -/

theorem Schema.type?_eq_none_iff {n : String} :
    s.type? n = none ↔ ∀ t ∈ s.types, t.name ≠ n := by
  simp only [Schema.type?, List.find?_eq_none, beq_iff_eq, ne_eq]

theorem Schema.find_eq_noType_iff {m : Member} :
    s.find m = .noType ↔ ∀ t ∈ s.types, t.name ≠ m.type := by
  rw [← Schema.type?_eq_none_iff, Schema.find]
  cases s.type? m.type with
  | none => simp
  | some t =>
      simp only [reduceCtorEq, iff_false]
      split
      · simp
      · split <;> simp

theorem ObjectType.not_has_iff {t : ObjectType} {n : String} :
    ¬ t.Has n ↔ t.relation? n = none ∧ t.permission? n = none := by
  simp [ObjectType.relation?, ObjectType.permission?, List.find?_eq_none, ObjectType.Has]

theorem Schema.find_eq_noName_iff {m : Member} :
    s.find m = .noName ↔ ∃ t, s.type? m.type = some t ∧ ¬ t.Has m.name := by
  simp only [ObjectType.not_has_iff]
  rw [Schema.find]
  cases s.type? m.type with
  | none => simp
  | some t =>
      cases hrel : t.relation? m.name with
      | some r => simp [hrel]
      | none => cases hperm : t.permission? m.name <;> simp [hrel, hperm]

/-! ## Faults -/

/-- The error says, of an expression of the type, what keeps it from having rules.  `owner` is
blamed for it. -/
inductive Schema.Faults (s : Schema) (t : ObjectType) (owner : Member) :
    Expr → CompileError → Prop where
  | exclusion {e f : Expr} : Faults s t owner (.exclusion e f) (.unsupported owner .exclusion)
  | emptyUnion : Faults s t owner (.union []) (.unsupported owner .emptyUnion)
  | operandCount {es : List Expr} : es.length ≠ 2 →
      Faults s t owner (.intersection es) (.unsupported owner (.operandCount es.length))
  /-- The base of an arrow is no relation of the type. -/
  | noRelation {base target : String} : (∀ r ∈ t.relations, r.name ≠ base) →
      Faults s t owner (.arrow base target) (.undefinedRelation owner base)
  /-- The base of an arrow leads to a type that the schema does not declare. -/
  | noType {base target : String} {r : Relation} {u : Subject} : t.relation? base = some r →
      u ∈ r.subjects → (∀ t' ∈ s.types, t'.name ≠ u.type) →
        Faults s t owner (.arrow base target) (.undefinedType u.type owner)
  /-- The type does not have the name. -/
  | noName {source : String} : ¬ t.Has source →
      Faults s t owner (.name source) (.undefinedReference ⟨t.name, source⟩ owner)
  /-- The base of an arrow leads to a type that does not have the target. -/
  | noTarget {base target : String} {r : Relation} {u : Subject} {t' : ObjectType} :
      t.relation? base = some r → u ∈ r.subjects → t' ∈ s.types → t'.name = u.type →
        ¬ t'.Has target →
        Faults s t owner (.arrow base target) (.undefinedReference ⟨u.type, target⟩ owner)

/-- An unsupported form is reported with the kind of the expression. -/
theorem Schema.Faults.kind_eq {t : ObjectType} {owner blamed : Member} {x : Expr}
    {why : Unsupported} (h : s.Faults t owner x (.unsupported blamed why)) : why.kind = x.kind := by
  cases h with
  | exclusion => rfl
  | emptyUnion => rfl
  | operandCount _ => rfl

/-- A name that is looked up on the type itself and not found is at fault. -/
theorem Schema.faults_name {t : ObjectType} (htype : s.type? t.name = some t) {source : String}
    (hmissing : s.find ⟨t.name, source⟩ = .noName) (owner : Member) :
    s.Faults t owner (.name source) (.undefinedReference ⟨t.name, source⟩ owner) := by
  obtain ⟨t', htype', hhas⟩ := Schema.find_eq_noName_iff.mp hmissing
  cases htype.symm.trans htype'
  exact .noName hhas

/-- A step fails because of what takes it, unless it closes a cycle. -/
theorem Expr.Takes.faults {t : ObjectType} {d : String} {y : Expr} {step : Step}
    {path : List Member} (h : y.Takes t d step) (htype : s.type? t.name = some t)
    (hfails : step.Fails s recursive path e) :
    (∃ m cycle, e = .cycle m cycle) ∨ ∃ x, y.Contains x ∧ s.Faults t ⟨t.name, d⟩ x e := by
  have hdeclared : ∀ source : String, s.find ⟨t.name, source⟩ ≠ .noType := by
    intro source hmissing
    exact Schema.find_eq_noType_iff.mp hmissing t (List.mem_of_find?_eq_some htype) rfl
  cases hfails with
  | cycle => exact .inl ⟨_, _, rfl⟩
  | noType hmissing =>
      cases h with
      | need => exact absurd hmissing (hdeclared _)
      | operand _ => exact absurd hmissing (hdeclared _)
      | target hbase hu =>
          exact .inr ⟨_, .self, .noType hbase hu (Schema.find_eq_noType_iff.mp hmissing)⟩
  | noName hmissing =>
      cases h with
      | need => exact .inr ⟨_, .self, Schema.faults_name htype hmissing _⟩
      | operand hsource =>
          -- The name is an operand of the intersection that asks for it.
          exact .inr ⟨_, .intersection hsource .self, Schema.faults_name htype hmissing _⟩
      | target hbase hu =>
          obtain ⟨t', htype', hhas⟩ := Schema.find_eq_noName_iff.mp hmissing
          refine .inr ⟨_, .self, .noTarget hbase hu (List.mem_of_find?_eq_some htype') ?_ hhas⟩
          simpa using List.find?_some htype'
  | reject =>
      cases h with
      | noRelation hbase =>
          refine .inr ⟨_, .self, .noRelation ?_⟩
          simpa [ObjectType.relation?] using hbase
      | emptyUnion => exact .inr ⟨_, .self, .emptyUnion⟩
      | operandCount hlength => exact .inr ⟨_, .self, .operandCount hlength⟩
      | exclusion => exact .inr ⟨_, .self, .exclusion⟩

/-! ## Blame -/

/-- The error blames `owner`: up to its first separator the name is a permission of the type, and
the expression of that permission contains what is at fault. -/
def Schema.Blames (s : Schema) (owner : Member) (e : CompileError) : Prop :=
  ∃ t p x, s.find ⟨owner.type, baseName owner.name⟩ = .permission t p ∧ p.expr.Contains x ∧
    s.Faults t owner x e

/-- A step of a permission that fails blames the permission, unless it closes a cycle. -/
theorem Step.Fails.blames {path : List Member} {m : Member} {step : Step}
    (h : step.Fails s recursive path e) (hstep : step ∈ s.ownSteps m)
    (hreserved : s.reservedName? = none) :
    (∃ n cycle, e = .cycle n cycle) ∨ ∃ owner, s.Blames owner e := by
  obtain ⟨t, p, π, d, y, hfind, hy, htakes⟩ := Schema.mem_ownSteps_iff.mp hstep
  obtain ⟨htype, _, _⟩ := Schema.find_eq_permission_iff.mp hfind
  obtain ⟨ht, htname, hp, hpname⟩ := Schema.of_find_permission hfind
  rw [← htname] at htype
  have hbase : baseName d = p.name := by
    have hplain := Schema.reservedName?_eq_none_iff.mp hreserved t ht p.name
      (ObjectType.name_mem_declaredNames hp)
    exact hy.baseName_eq (by simpa [isReserved] using hplain)
  refine (htakes.faults htype h).imp_right fun hx => ?_
  obtain ⟨x, hx, hfaults⟩ := hx
  refine ⟨⟨t.name, d⟩, t, p, x, ?_, hy.contains.trans hx, hfaults⟩
  show s.find ⟨t.name, baseName d⟩ = .permission t p
  rw [hbase, htname, hpname]
  exact hfind

/-- Without reserved names, an error of compiling is a cycle, blames a permission, or says of a
declared permission that a lookup does not find it. -/
theorem Schema.blames_of_compile (h : s.compile recursive = .error e) :
    s.reservedName? = some e ∨ (∃ m path, e = .cycle m path) ∨ (∃ owner, s.Blames owner e) ∨
      ∃ m ∈ s.permissionMembers, s.find m = .noName ∧ e = .undefinedReference m m := by
  rcases Schema.firstError_of_compile h with hreserved | ⟨hreserved, m, hm, hsearch⟩
  · exact .inl hreserved
  · obtain ⟨path, step, htrail, hfails⟩ := Schema.trail_of_firstError hsearch
    rcases htrail.mem_steps with hstep | ⟨n, hstep⟩
    · obtain rfl := List.mem_singleton.mp hstep
      cases hfails with
      | noType hmissing =>
          obtain ⟨t, ht, hp⟩ := List.mem_flatMap.mp hm
          obtain ⟨p, _, rfl⟩ := List.mem_map.mp hp
          exact absurd rfl (Schema.find_eq_noType_iff.mp hmissing t ht)
      | noName hmissing => exact .inr (.inr (.inr ⟨m, hm, hmissing, rfl⟩))
      | cycle => exact .inr (.inl ⟨_, _, rfl⟩)
    · rcases hfails.blames hstep hreserved with hcycle | hblames
      · exact .inr (.inl hcycle)
      · exact .inr (.inr (.inl hblames))

/-- An error of any other form blames a permission. -/
theorem Schema.exists_blames (h : s.compile recursive = .error e)
    (hreserved : ∀ type name, e ≠ .reservedName type name) (hcycle : ∀ m path, e ≠ .cycle m path)
    (hlost : ∀ m, e ≠ .undefinedReference m m) : ∃ owner, s.Blames owner e := by
  rcases Schema.blames_of_compile h with hfound | ⟨m, path, he⟩ | hblames | ⟨m, _, _, he⟩
  · obtain ⟨type, name, he⟩ := Schema.exists_of_reservedName? hfound
    exact absurd he (hreserved type name)
  · exact absurd he (hcycle m path)
  · exact hblames
  · exact absurd he (hlost m)

/-- Where type names are distinct, a declared permission is found as a relation or a permission. -/
theorem Schema.find_ne_noName (hs : (s.types.map (·.name)).Nodup) {m : Member}
    (hm : m ∈ s.permissionMembers) : s.find m ≠ .noName := by
  intro hmissing
  obtain ⟨t', htype', hhas⟩ := Schema.find_eq_noName_iff.mp hmissing
  obtain ⟨t, ht, hm⟩ := List.mem_flatMap.mp hm
  obtain ⟨p, hp, rfl⟩ := List.mem_map.mp hm
  have htype : s.type? t.name = some t :=
    (find?_eq_some_iff_of_nodup ObjectType.name hs).mpr ⟨ht, rfl⟩
  cases htype.symm.trans htype'
  exact hhas (.inr ⟨p, hp, rfl⟩)

/-- In a schema whose types have distinct names, a compile error that is no reserved name and no
cycle blames a declared permission, and the expression of that permission contains what is at
fault.  An unsupported form is reported with its own kind. -/
theorem Schema.compile_error_blames (hs : (s.types.map (·.name)).Nodup)
    (h : s.compile recursive = .error e) :
    (∃ type name, e = .reservedName type name) ∨ (∃ m path, e = .cycle m path) ∨
      ∃ owner t p x, s.find ⟨owner.type, baseName owner.name⟩ = .permission t p ∧
        p.expr.Contains x ∧ s.Faults t owner x e ∧
        ∀ why, e = .unsupported owner why → why.kind = x.kind := by
  rcases Schema.blames_of_compile h with hreserved | hcycle | hblames | hlost
  · exact .inl (Schema.exists_of_reservedName? hreserved)
  · exact .inr (.inl hcycle)
  · obtain ⟨owner, t, p, x, hfind, hx, hfaults⟩ := hblames
    refine .inr (.inr ⟨owner, t, p, x, hfind, hx, hfaults, ?_⟩)
    intro why he
    subst he
    exact hfaults.kind_eq
  · obtain ⟨m, hm, hmissing, _⟩ := hlost
    exact absurd hmissing (Schema.find_ne_noName hs hm)

/-- Tasks `t` of groups `g` and halls `h`.  Who may plan a task, `p`, owns it, `o`.  Planning asks for
`q` where the task belongs, and halls do not have that. -/
def plannedTasks : Schema where
  types := [⟨"t", [⟨"a", [⟨"t", none⟩]⟩, ⟨"r", [⟨"g", none⟩, ⟨"h", none⟩]⟩],
      [⟨"o", .name "p"⟩,
        ⟨"p", .intersection [.name "a", .intersection [.name "a", .arrow "r" "q"]]⟩]⟩,
    ⟨"g", [⟨"q", [⟨"t", none⟩]⟩], []⟩, ⟨"h", [], []⟩]

/-- The error comes up while `o` is compiled, and blames `p` under the name of an operand. -/
theorem plannedTasks_blames : (plannedTasks.types.map (·.name)).Nodup ∧
    plannedTasks.compile = .error (.undefinedReference ⟨"h", "q"⟩ ⟨"t", "p$1$1"⟩) ∧
    baseName "p$1$1" = "p" ∧ ∃ t p x, plannedTasks.find ⟨"t", "p"⟩ = .permission t p ∧
      p.expr.Contains x ∧
      plannedTasks.Faults t ⟨"t", "p$1$1"⟩ x (.undefinedReference ⟨"h", "q"⟩ ⟨"t", "p$1$1"⟩) := by
  have hs : (plannedTasks.types.map (·.name)).Nodup := by decide
  have h : plannedTasks.compile = .error (.undefinedReference ⟨"h", "q"⟩ ⟨"t", "p$1$1"⟩) := by cbv
  have hbase : baseName "p$1$1" = "p" := by cbv
  refine ⟨hs, h, hbase, ?_⟩
  rcases Schema.compile_error_blames hs h with ⟨_, _, he⟩ | ⟨_, _, he⟩ | hblames
  · cases he
  · cases he
  · obtain ⟨owner, t, p, x, hfind, hx, hfaults, _⟩ := hblames
    have howner : owner = ⟨"t", "p$1$1"⟩ := by
      generalize (⟨"h", "q"⟩ : Member) = target at hfaults
      cases hfaults <;> rfl
    subst howner
    exact ⟨t, p, x, hbase ▸ hfind, hx, hfaults⟩

end Rebac
