import Rebac.Proofs.Failures
import Rebac.Proofs.Rendering

/-!
# Checks before compiling

Validation and reading look at a schema before the compiler does, and keep some errors away from
it.

Validation reports a reserved character if and only if a declared name holds it, and so does the
compiler, in another order.  Validation also reports every subject of an undeclared type.  The
compiler comes to such a type only through an arrow, whose base accepts such a subject.

Reading gives names of letters, digits and underscores, and unions and intersections of two operands
at least.  So among the forms that have no rules it gives exclusions and long intersections only.
-/

namespace Rebac

variable {s : Schema} {limits : Limits} {recursive : Bool}

/-! ## Reserved names -/

/-- A count that is checked against a limit gives no other problem. -/
theorem of_mem_checkLimit {problem : Nat → Nat → Problem} {count limit : Nat} {x : Problem}
    (h : x ∈ checkLimit problem count limit) : x = problem count limit := by
  rw [checkLimit] at h
  split at h
  · exact List.mem_singleton.mp h
  · cases h

theorem ObjectType.reservedCharacter_mem_problems_iff {t : ObjectType} {n : String} :
    .reservedCharacter n ∈ t.problems s limits ↔ n ∈ t.declaredNames ∧ isReserved n = true := by
  rw [ObjectType.problems]
  constructor
  · intro h
    rcases List.mem_append.mp h with h | h
    · rcases List.mem_append.mp h with h | h
      · rcases List.mem_append.mp h with h | h <;> cases of_mem_checkLimit h
      · obtain ⟨k, hk, heq⟩ := List.mem_map.mp h
        cases heq
        exact List.mem_filter.mp hk
    · -- A relation has problems of its own kinds.
      obtain ⟨r, _, h⟩ := List.mem_flatMap.mp h
      simp [Relation.problems] at h
  · intro h
    refine List.mem_append_left _ (List.mem_append_right _ ?_)
    exact List.mem_map_of_mem (List.mem_filter.mpr h)

/-- Validation reports the reserved names that the types declare. -/
theorem Schema.reservedCharacter_mem_problems_iff {n : String} :
    .reservedCharacter n ∈ s.problems limits ↔
      ∃ t ∈ s.types, n ∈ t.declaredNames ∧ isReserved n = true := by
  rw [Schema.problems, List.mem_append, List.mem_flatMap]
  simp only [ObjectType.reservedCharacter_mem_problems_iff]
  constructor
  · rintro (h | h)
    · cases of_mem_checkLimit h
    · exact h
  · exact .inr

theorem Schema.exists_reservedCharacter_iff :
    (∃ n, .reservedCharacter n ∈ s.problems limits) ↔ s.reservedName? ≠ none := by
  simp only [ne_eq, Schema.reservedName?_eq_none_iff, Schema.reservedCharacter_mem_problems_iff,
    isReserved, List.contains_iff_mem]
  constructor
  · rintro ⟨n, t, ht, hn, hreserved⟩ hplain
    exact hplain t ht n hn hreserved
  · intro h
    push Not at h
    obtain ⟨t, ht, n, hn, hreserved⟩ := h
    exact ⟨n, t, ht, hn, hreserved⟩

/-- Compiling reports a reserved name if there is one, and only then. -/
theorem Schema.exists_compile_reservedName_iff :
    (∃ type name, s.compile recursive = .error (.reservedName type name)) ↔
      s.reservedName? ≠ none := by
  constructor
  · rintro ⟨type, name, h⟩ hnone
    rcases Schema.blames_of_compile h with hreserved | hcycle | hblames | hlost
    · rw [hnone] at hreserved
      cases hreserved
    · obtain ⟨_, _, he⟩ := hcycle
      cases he
    · obtain ⟨_, _, _, _, _, _, hfaults⟩ := hblames
      cases hfaults
    · obtain ⟨_, _, _, he⟩ := hlost
      cases he
  · intro h
    obtain ⟨e, he⟩ := Option.ne_none_iff_exists'.mp h
    obtain ⟨type, name, rfl⟩ := Schema.exists_of_reservedName? he
    exact ⟨type, name, by rw [Schema.compile, he]⟩

/-! ## Undeclared types -/

/-- Validation reports the subjects of undeclared types. -/
theorem Schema.undefinedSubjectType_mem_problems {t : ObjectType} {r : Relation} {u : Subject}
    (ht : t ∈ s.types) (hr : r ∈ t.relations) (hu : u ∈ r.subjects)
    (hmissing : ∀ t' ∈ s.types, t'.name ≠ u.type) :
    .undefinedSubjectType t.name r.name u.type ∈ s.problems limits := by
  have htype : s.type? u.type = none := Schema.type?_eq_none_iff.mpr hmissing
  have hrelation : .undefinedSubjectType t.name r.name u.type ∈ r.problems s t := by
    rw [Relation.problems]
    refine List.mem_append_right _ (List.mem_filterMap.mpr ⟨u, hu, ?_⟩)
    simp [htype]
  refine List.mem_append_right _ (List.mem_flatMap.mpr ⟨t, ht, ?_⟩)
  exact List.mem_append_right _ (List.mem_flatMap.mpr ⟨r, hr, hrelation⟩)

/-- Where compiling comes to an undeclared type, validation reports it. -/
theorem Schema.problems_ne_nil_of_undefinedType {type : String} {origin : Member}
    (h : s.compile recursive = .error (.undefinedType type origin)) : s.problems limits ≠ [] := by
  obtain ⟨owner, t, p, x, hfind, _, hfaults⟩ := Schema.exists_blames h (by simp) (by simp) (by simp)
  cases hfaults with
  | noType hbase hu hmissing =>
      obtain ⟨ht, _, _, _⟩ := Schema.of_find_permission hfind
      exact List.ne_nil_of_mem (Schema.undefinedSubjectType_mem_problems ht
        (List.mem_of_find?_eq_some hbase) hu hmissing)

/-! ## Schemas from a text -/

/-- A name of the language does not hold the separator. -/
theorem Language.IsName.separator_not_mem {n : String} (h : IsName n) : separator ∉ n.toList := by
  obtain ⟨c, cs, hn, hc, hcs⟩ := h
  rw [hn]
  intro hmem
  rcases List.mem_cons.mp hmem with rfl | hmem
  · cases hc
  · rcases hcs _ hmem with hlower | hdigit | hscore
    · cases hlower
    · cases hdigit
    · cases hscore

theorem ObjectType.declaredNames_subset_names (t : ObjectType) : t.declaredNames ⊆ t.names := by
  intro n hn
  rcases List.mem_cons.mp hn with rfl | hn
  · exact List.mem_cons_self
  · refine List.mem_cons_of_mem _ ?_
    rcases List.mem_append.mp hn with hn | hn
    · obtain ⟨r, hr, rfl⟩ := List.mem_map.mp hn
      exact List.mem_append_left _ (List.mem_flatMap.mpr ⟨r, hr, List.mem_cons_self⟩)
    · obtain ⟨p, hp, rfl⟩ := List.mem_map.mp hn
      exact List.mem_append_right _ (List.mem_flatMap.mpr ⟨p, hp, List.mem_cons_self⟩)

/-- A schema that can be written declares no reserved name. -/
theorem Schema.Writable.reservedName?_eq_none (h : s.Writable) : s.reservedName? = none := by
  rw [Schema.reservedName?_eq_none_iff]
  intro t ht n hn
  have hname := h.names n (List.mem_flatMap.mpr ⟨t, ht, t.declaredNames_subset_names hn⟩)
  exact hname.separator_not_mem

theorem Expr.hasOperands_of_mem {es : List Expr} (h : Expr.AllHaveOperands es) :
    ∀ e ∈ es, e.HasOperands := by
  induction es with
  | nil => simp
  | cons e es ih => exact List.forall_mem_cons.mpr ⟨h.1, ih h.2⟩

/-- No operands are missing in the parts of an expression, if none are in the whole. -/
theorem Expr.Contains.hasOperands {e x : Expr} (h : e.Contains x) (he : e.HasOperands) :
    x.HasOperands := by
  induction h with
  | self => exact he
  | union hmem _ ih => exact ih (Expr.hasOperands_of_mem he.2 _ hmem)
  | intersection hmem _ ih => exact ih (Expr.hasOperands_of_mem he.2 _ hmem)
  | base _ ih => exact ih he.1
  | excluded _ ih => exact ih he.2

/-- Of the expressions in a schema that can be written, exclusions and intersections of three and
more operands have no rules. -/
theorem Schema.Writable.of_unsupported (hs : s.Writable) {owner : Member} {why : Unsupported}
    (h : s.compile recursive = .error (.unsupported owner why)) :
    why = .exclusion ∨ ∃ t p es, s.find ⟨owner.type, baseName owner.name⟩ = .permission t p ∧
      p.expr.Contains (.intersection es) ∧ 3 ≤ es.length ∧ why = .operandCount es.length := by
  obtain ⟨_, t, p, x, hfind, hx, hfaults⟩ := Schema.exists_blames h (by simp) (by simp) (by simp)
  obtain ⟨ht, _, hp, _⟩ := Schema.of_find_permission hfind
  have hoperands := hx.hasOperands ((hs.members t ht).operands p hp)
  cases hfaults with
  | exclusion => exact .inl rfl
  | emptyUnion => exact absurd hoperands.1 (by simp)
  | operandCount hlength =>
      refine .inr ⟨t, p, _, hfind, hx, ?_, rfl⟩
      have htwo := hoperands.1
      omega

/-- What validation and reading rule out does not come up in compiling.  Without problems no
reserved name and no undeclared type is reported.  A reserved name is reported if and only if
validation has a problem with a reserved character.  For a schema read from a text no reserved
name is reported, and of unsupported forms only exclusions and intersections of at least three
operands. -/
theorem Schema.checks_keep_errors_out (s : Schema) (limits : Limits) (recursive : Bool) :
    (s.problems limits = [] →
      (∀ type name, s.compile recursive ≠ .error (.reservedName type name)) ∧
        ∀ type origin, s.compile recursive ≠ .error (.undefinedType type origin)) ∧
    ((∃ type name, s.compile recursive = .error (.reservedName type name)) ↔
      ∃ name, .reservedCharacter name ∈ s.problems limits) ∧
    ∀ text, Language.readSchema text = .ok s →
      (∀ type name, s.compile recursive ≠ .error (.reservedName type name)) ∧
        ∀ owner why, s.compile recursive = .error (.unsupported owner why) →
          why = .exclusion ∨ ∃ t p es,
            s.find ⟨owner.type, baseName owner.name⟩ = .permission t p ∧
              p.expr.Contains (.intersection es) ∧ 3 ≤ es.length ∧
                why = .operandCount es.length := by
  have hreserved : (∃ type name, s.compile recursive = .error (.reservedName type name)) ↔
      ∃ name, .reservedCharacter name ∈ s.problems limits := by
    rw [Schema.exists_compile_reservedName_iff, Schema.exists_reservedCharacter_iff]
  refine ⟨?_, hreserved, ?_⟩
  · intro hproblems
    refine ⟨?_, fun type origin h => Schema.problems_ne_nil_of_undefinedType h hproblems⟩
    intro type name h
    obtain ⟨n, hn⟩ := hreserved.mp ⟨type, name, h⟩
    rw [hproblems] at hn
    cases hn
  · intro text hread
    have hs := (Language.rendering_of_readSchema hread).1
    refine ⟨?_, fun owner why h => hs.of_unsupported h⟩
    intro type name h
    exact Schema.exists_compile_reservedName_iff.mp ⟨type, name, h⟩ hs.reservedName?_eq_none

/-- Tasks `t` whose planning, `p`, asks for three names at once. -/
def threefoldTasks : Schema where
  types := [⟨"t", [⟨"a", [⟨"t", none⟩]⟩], [⟨"p", .intersection [.name "a",
    .union [.name "a", .intersection [.name "a", .name "a", .name "a"]]]⟩]⟩]

theorem readSchema_threefoldTasks : Language.readSchema
    "definition t \x7b relation a: t permission p = a & (a + (a & a & a)) \x7d" =
      .ok threefoldTasks := by
  cbv

/-- The schema is read from a text and has no problems.  It fails at the inner intersection. -/
theorem threefoldTasks_compile : threefoldTasks.problems {} = [] ∧
    threefoldTasks.compile = .error (.unsupported ⟨"t", "p$1"⟩ (.operandCount 3)) ∧
    (∀ type origin, threefoldTasks.compile ≠ .error (.undefinedType type origin)) ∧
    (∀ type name, threefoldTasks.compile ≠ .error (.reservedName type name)) ∧
    ∃ t p es, threefoldTasks.find ⟨"t", "p"⟩ = .permission t p ∧
      p.expr.Contains (.intersection es) ∧ es.length = 3 := by
  have hproblems : threefoldTasks.problems {} = [] := by decide
  have h : threefoldTasks.compile = .error (.unsupported ⟨"t", "p$1"⟩ (.operandCount 3)) := by cbv
  have hbase : baseName "p$1" = "p" := by cbv
  obtain ⟨hvalid, _, htext⟩ := threefoldTasks.checks_keep_errors_out {} false
  obtain ⟨hplain, hforms⟩ := htext _ readSchema_threefoldTasks
  refine ⟨hproblems, h, (hvalid hproblems).2, hplain, ?_⟩
  rcases hforms _ _ h with hwhy | ⟨t, p, es, hfind, hes, _, hwhy⟩
  · cases hwhy
  · rw [hbase] at hfind
    exact ⟨t, p, es, hfind, hes, (Unsupported.operandCount.inj hwhy).symm⟩

end Rebac
