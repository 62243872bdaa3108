import Rebac.Proofs.Translation
import Rebac.Proofs.WarmResolver

/-!
# Allowing recursion

The option to allow recursion is looked at in one place: where a needed permission
stands on the path.  There the strict search gives up with a cycle, and the lenient
search goes on.  Everywhere else the two searches take the same turn, so as long as
the strict one has met no cycle they have met the same errors
(`Schema.firstError_false`).

What is listed after a search without errors is a walk through a settled memory, and
any two settled memories give the same walk.  So the two options list the same
permissions in the same order, visit by visit, until the strict one meets a cycle.

No other step gives a cycle: rejections are about undeclared bases and unsupported
forms.  Hence the lenient search never ends in one.
-/

namespace Rebac

variable {α β : Type}

/-! ## Outcomes that differ by a cycle -/

/-- The outcome is a cycle. -/
def EndsInCycle (x : Except CompileError α) : Prop := ∃ e, x = .error e ∧ e.kind = .cycle

/-- With recursion allowed (`lenient`) and not (`strict`) the outcome is the same, unless
the strict one is a cycle. -/
structure DiffersByCycle (strict lenient : Except CompileError α) : Prop where
  /-- A strict result is kept. -/
  keeps : ∀ a, strict = .ok a → lenient = .ok a
  /-- A lenient result is the strict one, or hides a cycle. -/
  result : ∀ a, lenient = .ok a → strict = .ok a ∨ EndsInCycle strict
  /-- A lenient error is the strict one, or comes after a cycle. -/
  error : ∀ e, lenient = .error e → strict = .error e ∨ EndsInCycle strict
  /-- A lenient outcome is no cycle. -/
  acyclic : ¬ EndsInCycle lenient

theorem not_endsInCycle_ok (a : α) : ¬ EndsInCycle (.ok a : Except CompileError α) := by
  rintro ⟨e, he, _⟩
  cases he

theorem DiffersByCycle.of_eq_or {strict lenient : Except CompileError α}
    (h : strict = lenient ∨ EndsInCycle strict) (hlenient : ¬ EndsInCycle lenient) :
    DiffersByCycle strict lenient where
  keeps a ha := by
    rcases h with rfl | hcycle
    · exact ha
    · exact absurd (ha ▸ hcycle) (not_endsInCycle_ok a)
  result a ha := by
    rw [← ha]
    exact h
  error e he := by
    rw [← he]
    exact h
  acyclic := hlenient

theorem DiffersByCycle.eq_or {strict lenient : Except CompileError α}
    (h : DiffersByCycle strict lenient) : strict = lenient ∨ EndsInCycle strict := by
  cases lenient with
  | ok a => exact h.result a rfl
  | error e => exact h.error e rfl

theorem EndsInCycle.map_iff {x : Except CompileError α} (f : α → β) :
    EndsInCycle (x.map f) ↔ EndsInCycle x := by
  cases x with
  | ok a => simp [EndsInCycle, Except.map]
  | error e => simp [EndsInCycle, Except.map]

theorem DiffersByCycle.map {strict lenient : Except CompileError α}
    (h : DiffersByCycle strict lenient) (f : α → β) :
    DiffersByCycle (strict.map f) (lenient.map f) := by
  refine .of_eq_or ?_ fun hcycle => h.acyclic ((EndsInCycle.map_iff f).mp hcycle)
  rcases h.eq_or with rfl | hcycle
  · exact .inl rfl
  · exact .inr ((EndsInCycle.map_iff f).mpr hcycle)

/-! ## The two searches -/

variable {s : Schema} {path : List Member}

/-- A rejection is no cycle. -/
theorem Schema.kind_of_reject {m : Member} {e : CompileError} (h : .reject e ∈ s.ownSteps m) :
    e.kind ≠ .cycle := by
  obtain ⟨t, d, x, _, htakes⟩ := Schema.exists_mem_ownSteps_iff.mp ⟨m, h⟩
  cases htakes with
  | noRelation => simp [CompileError.kind]
  | emptyUnion => simp [CompileError.kind]
  | operandCount => simp [CompileError.kind]
  | exclusion => simp [CompileError.kind]

/-- A trail ends at one of the steps it starts from or at a step of a permission. -/
theorem Schema.Trail.mem_steps {path' : List Member} {steps : List Step} {step : Step}
    (h : s.Trail path steps path' step) : step ∈ steps ∨ ∃ m, step ∈ s.ownSteps m := by
  induction h with
  | here hstep => exact .inl hstep
  | @enter path path' steps step m origin hneed hperm hpath htrail ih =>
      rcases ih with hstep | hstep
      · exact .inr ⟨m, hstep⟩
      · exact .inr hstep

theorem Schema.kind_of_firstError_true {m : Member} {e : CompileError}
    (h : s.firstError true path [.need m m] = some e) : e.kind ≠ .cycle := by
  obtain ⟨path', step, htrail, hfails⟩ := Schema.trail_of_firstError h
  cases hfails with
  | noType => simp [CompileError.kind]
  | noName => simp [CompileError.kind]
  | cycle hrec => cases hrec
  | reject =>
      rcases htrail.mem_steps with hstep | ⟨n, hstep⟩
      · simp at hstep
      · exact Schema.kind_of_reject hstep

/-- The two options judge alike, unless the strict one sees a cycle. -/
theorem Schema.judge_false (memory : Memory) (target origin : Member) :
    s.judge false path memory target origin = s.judge true path memory target origin ∨
      ∃ e, s.judge false path memory target origin = .fail e ∧ e.kind = .cycle := by
  simp only [Schema.judge]
  cases s.find target with
  | noType => exact .inl rfl
  | noName => exact .inl rfl
  | relation r => exact .inl rfl
  | permission t p =>
      by_cases hknown : memory.knows target = true
      · simp [hknown]
      · by_cases hpath : target ∈ path
        · simp [hknown, hpath, CompileError.kind]
        · simp [hknown, hpath]

/-- The two searches find the same, unless the strict one finds a cycle. -/
theorem Schema.firstError_false (s : Schema) (path : List Member) (steps : List Step) :
    s.firstError false path steps = s.firstError true path steps ∨
      ∃ e, s.firstError false path steps = some e ∧ e.kind = .cycle := by
  -- By the recursion of the lenient search, which goes further than the strict one.
  fun_induction Schema.firstError s true path steps with
  | case1 path => simp [Schema.firstError]
  | case2 path target origin rest hjudge ih =>
      rcases s.judge_false [] target origin with heq | ⟨e, hfail, hcycle⟩
      · rw [Schema.firstError_need_settled (heq.trans hjudge)]
        exact ih
      · exact .inr ⟨e, Schema.firstError_need_fail hfail rest, hcycle⟩
  | case3 path target origin rest e hjudge =>
      rcases s.judge_false [] target origin with heq | ⟨e', hfail, hcycle⟩
      · exact .inl (Schema.firstError_need_fail (heq.trans hjudge) rest)
      · exact .inr ⟨e', Schema.firstError_need_fail hfail rest, hcycle⟩
  | case4 path target origin rest t p hjudge ihenter ih =>
      rcases s.judge_false [] target origin with heq | ⟨e, hfail, hcycle⟩
      · obtain ⟨hfind, _, _⟩ := Schema.of_judge_enter hjudge
        rw [← Schema.ownSteps_of_find hfind] at ihenter ⊢
        rw [Schema.firstError_need_enter (heq.trans hjudge)]
        -- A cycle inside comes first.  Otherwise both go on after the same inner search.
        rcases ihenter with hinner | ⟨e, he, hcycle⟩
        · rw [hinner]
          cases s.firstError true (path ++ [target]) (s.ownSteps target) with
          | some e => exact .inl rfl
          | none => simpa using ih
        · exact .inr ⟨e, by simp [he], hcycle⟩
      · exact .inr ⟨e, Schema.firstError_need_fail hfail rest, hcycle⟩
  | case5 path r rest ih => simpa [Schema.firstError] using ih
  | case6 path r rest ih => simpa [Schema.firstError] using ih
  | case7 path r rest ih => simpa [Schema.firstError] using ih
  | case8 path e rest => simp [Schema.firstError]

/-! ## Visits -/

section Visits

variable {r : Resolver} {m : Member}

/-- A visit fails where the search does. -/
theorem Resolver.Sound.order_eq_error_iff (h : r.Sound) (e : CompileError) :
    (r.order m).1 = .error e ↔ r.schema.firstError r.recursive [] [.need m m] = some e := by
  rw [← h.follow_eq_error_iff e, Resolver.order]
  cases r.schema.follow r.recursive [] r.memory [.need m m] with
  | error e' => simp
  | ok memory => simp

/-- Two visits that succeed list the same. -/
theorem Resolver.Sound.order_ok_unique {r' : Resolver} (h : r.Sound) (h' : r'.Sound)
    (hschema : r.schema = r'.schema) {members members' : List Member}
    (hok : (r.order m).1 = .ok members) (hok' : (r'.order m).1 = .ok members') :
    members = members' := by
  rw [Resolver.order] at hok hok'
  split at hok
  · cases hok
  · rename_i memory hfollow
    split at hok'
    · cases hok'
    · rename_i memory' hfollow'
      cases hok
      cases hok'
      have hsettled := (Memory.Sound.follow h hfollow).1.settled
      have hsettled' := (Memory.Sound.follow h' hfollow').1.settled
      have hknows := Schema.knows_of_follow hfollow h.settled
      have hknows' := Schema.knows_of_follow hfollow' h'.settled
      rw [← hschema] at hsettled' hknows' ⊢
      exact hsettled.walk_eq hsettled' [] [] hknows hknows'

/-- Where the strict visit meets no cycle, the two visits have the same outcome. -/
theorem Resolver.Sound.order_eq_or {r' : Resolver} (h : r.Sound) (h' : r'.Sound)
    (hschema : r.schema = r'.schema) (hrec : r.recursive = false) (hrec' : r'.recursive = true) :
    (r.order m).1 = (r'.order m).1 ∨ EndsInCycle (r.order m).1 := by
  have hsearch := r.schema.firstError_false [] [.need m m]
  cases hstrict : (r.order m).1 with
  | error e =>
      have he := (h.order_eq_error_iff e).mp hstrict
      rw [hrec] at he
      rcases hsearch with heq | ⟨e', he', hcycle⟩
      · rw [heq, hschema, ← hrec'] at he
        exact .inl ((h'.order_eq_error_iff e).mpr he).symm
      · cases he.symm.trans he'
        exact .inr ⟨e, rfl, hcycle⟩
  | ok members =>
      cases hlenient : (r'.order m).1 with
      | ok members' => exact .inl (congrArg _ (h.order_ok_unique h' hschema hstrict hlenient))
      | error e =>
          -- The search would have failed for the strict visit too.
          have he := (h'.order_eq_error_iff e).mp hlenient
          rw [hrec', ← hschema] at he
          have hclear : ∀ e', r.schema.firstError false [] [.need m m] ≠ some e' := by
            intro e' he'
            rw [← hrec, ← h.order_eq_error_iff, hstrict] at he'
            cases he'
          rcases hsearch with heq | ⟨e', he', _⟩
          · exact absurd (heq.trans he) (hclear e)
          · exact absurd he' (hclear e')

/-- A lenient visit does not end in a cycle. -/
theorem Resolver.Sound.not_endsInCycle_order (h : r.Sound) (hrec : r.recursive = true) :
    ¬ EndsInCycle (r.order m).1 := by
  rintro ⟨e, he, hcycle⟩
  have herror := (h.order_eq_error_iff e).mp he
  rw [hrec] at herror
  exact Schema.kind_of_firstError_true herror hcycle

end Visits

/-! ## One visit after the other -/

theorem Resolver.Sound.not_endsInCycle_emission {r : Resolver} (h : r.Sound)
    (hrec : r.recursive = true) (emitted todo : List Member) :
    ¬ EndsInCycle (r.emission emitted todo) := by
  induction todo generalizing r emitted with
  | nil => exact not_endsInCycle_ok emitted
  | cons m ms ih =>
      have hvisit := h.not_endsInCycle_order (m := m) hrec
      have hnext := h.order m
      have hrec := (r.recursive_order m).trans hrec
      rw [Resolver.emission]
      generalize r.order m = visit at hvisit hnext hrec ⊢
      obtain ⟨answer, next⟩ := visit
      cases answer with
      | error e => simpa [EndsInCycle] using hvisit
      | ok members => exact ih hnext hrec _

/-- Resolvers that are alike but for the option list the same visit after visit, unless the
strict one meets a cycle. -/
theorem Resolver.Sound.emission_eq_or {r r' : Resolver} (h : r.Sound) (h' : r'.Sound)
    (hschema : r.schema = r'.schema) (hrec : r.recursive = false) (hrec' : r'.recursive = true)
    (emitted todo : List Member) :
    r.emission emitted todo = r'.emission emitted todo ∨ EndsInCycle (r.emission emitted todo) := by
  induction todo generalizing r r' emitted with
  | nil => exact .inl rfl
  | cons m ms ih =>
      have hvisit := h.order_eq_or (m := m) h' hschema hrec hrec'
      have hnext := h.order m
      have hnext' := h'.order m
      have hschema := (r.schema_order m).trans (hschema.trans (r'.schema_order m).symm)
      have hrec := (r.recursive_order m).trans hrec
      have hrec' := (r'.recursive_order m).trans hrec'
      rw [Resolver.emission, Resolver.emission]
      generalize r.order m = visit at hvisit hnext hschema hrec ⊢
      generalize r'.order m = visit' at hvisit hnext' hschema hrec' ⊢
      obtain ⟨answer, next⟩ := visit
      obtain ⟨answer', next'⟩ := visit'
      rcases hvisit with heq | ⟨e, he, hcycle⟩
      · obtain rfl : answer = answer' := heq
        cases answer with
        | error e => exact .inl rfl
        | ok members => exact ih hnext hnext' hschema hrec hrec' _
      · obtain rfl : answer = .error e := he
        exact .inr ⟨e, rfl, hcycle⟩

theorem Schema.emission_differsByCycle (s : Schema) :
    DiffersByCycle (s.emission false) (s.emission true) := by
  have hstrict := Resolver.sound_fresh s false
  have hlenient := Resolver.sound_fresh s true
  rw [Schema.emission, Schema.emission]
  cases hreserved : s.reservedName? with
  | none =>
      exact .of_eq_or (hstrict.emission_eq_or hlenient rfl rfl rfl [] s.sortedMembers)
        (hlenient.not_endsInCycle_emission rfl [] s.sortedMembers)
  | some e =>
      refine .of_eq_or (.inl rfl) ?_
      obtain ⟨t, _, ht⟩ := List.exists_of_findSome?_eq_some hreserved
      obtain ⟨n, _, rfl⟩ := Option.map_eq_some_iff.mp ht
      simp [EndsInCycle, CompileError.kind]

/-- Allowing recursion changes nothing but cycles, for the rule base of a schema and for every
name that a fresh resolver is asked for. -/
theorem Schema.allowing_recursion_only_hides_cycles (s : Schema) :
    DiffersByCycle (s.compile false) (s.compile true) ∧
      ∀ m : Member, DiffersByCycle (Resolver.resolve ⟨s, false, []⟩ m).1
        (Resolver.resolve ⟨s, true, []⟩ m).1 := by
  constructor
  · rw [Schema.compile_eq, Schema.compile_eq]
    exact s.emission_differsByCycle.map s.ruleBase
  · intro m
    have hstrict := Resolver.sound_fresh s false
    have hlenient := Resolver.sound_fresh s true
    rw [hstrict.resolve_eq, hlenient.resolve_eq]
    have hvisit := hstrict.order_eq_or (m := m) hlenient rfl rfl rfl
    exact DiffersByCycle.map (.of_eq_or hvisit (hlenient.not_endsInCycle_order rfl)) _

end Rebac
