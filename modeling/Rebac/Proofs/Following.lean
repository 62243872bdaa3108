import Rebac.Compile

/-!
# What following leaves in the memory

A permission has the same steps whoever asks for it, so the memory can be
compared with the schema.  `Schema.ownSteps` are the steps of a permission, and
a memory is *settled* relative to a path when it holds nothing but permissions,
each with the expansion of its own steps, and when every step of a held
permission has been passed: nothing was rejected, and a needed permission is
held itself or stands on the path.

Following steps keeps a memory settled (`Schema.follow_settled`).  Entering a
permission lengthens the path by it, and what relied on it there finds it in the
memory when it is finished.  So at the end, where the path is empty, the memory
is closed under needs, and the walk that lists dependencies first stays in it.
-/

namespace Rebac

/-! ## Lookups -/

theorem Schema.find_eq_relation_iff {s : Schema} {m : Member} {r : Relation} :
    s.find m = .relation r ↔ ∃ t, s.type? m.type = some t ∧ t.relation? m.name = some r := by
  constructor
  · intro h
    rw [Schema.find] at h
    split at h
    · cases h
    · rename_i t htype
      split at h
      · rename_i r' hrel
        cases h
        exact ⟨t, htype, hrel⟩
      · split at h <;> cases h
  · rintro ⟨t, htype, hrel⟩
    simp only [Schema.find, htype, hrel]

theorem Schema.find_eq_permission_iff {s : Schema} {m : Member} {t : ObjectType}
    {p : Permission} :
    s.find m = .permission t p ↔
      s.type? m.type = some t ∧ t.relation? m.name = none ∧ t.permission? m.name = some p := by
  constructor
  · intro h
    rw [Schema.find] at h
    split at h
    · cases h
    · rename_i t' htype
      split at h
      · cases h
      · rename_i hrel
        split at h
        · rename_i q hperm
          cases h
          exact ⟨htype, hrel, hperm⟩
        · cases h
  · rintro ⟨htype, hrel, hperm⟩
    simp only [Schema.find, htype, hrel, hperm]

/-! ## The steps of a permission -/

/-- The member is a permission by the lookups of the schema. -/
def Schema.IsPermission (s : Schema) (m : Member) : Prop :=
  ∃ t p, s.find m = .permission t p

/-- The member is a relation by the lookups of the schema. -/
def Schema.IsRelation (s : Schema) (m : Member) : Prop :=
  ∃ r, s.find m = .relation r

/-- The steps that a permission takes itself.  Other members take none. -/
def Schema.ownSteps (s : Schema) (m : Member) : List Step :=
  match s.find m with
  | .permission t p => p.expr.steps t p.name
  | _ => []

theorem Schema.ownSteps_of_find {s : Schema} {m : Member} {t : ObjectType} {p : Permission}
    (h : s.find m = .permission t p) : s.ownSteps m = p.expr.steps t p.name := by
  rw [Schema.ownSteps, h]

/-- Only a permission has steps. -/
theorem Schema.of_mem_ownSteps {s : Schema} {m : Member} {step : Step}
    (h : step ∈ s.ownSteps m) :
    ∃ t p, s.find m = .permission t p ∧ step ∈ p.expr.steps t p.name := by
  rw [Schema.ownSteps] at h
  split at h
  · rename_i t p hfind
    exact ⟨t, p, hfind, h⟩
  · cases h

theorem Schema.not_isRelation_of_isPermission {s : Schema} {m : Member}
    (hp : s.IsPermission m) : ¬ s.IsRelation m := by
  rintro ⟨r, hr⟩
  obtain ⟨t, p, hp⟩ := hp
  rw [hr] at hp
  cases hp

/-- A step is passed when nothing is rejected and what is needed is a relation,
or a permission that is taken care of. -/
def Step.Passed (s : Schema) (done : Member → Prop) : Step → Prop
  | .need m _ => s.IsRelation m ∨ (s.IsPermission m ∧ done m)
  | .reject _ => False
  | _ => True

theorem Step.Passed.mono {s : Schema} {done done' : Member → Prop}
    (hsub : ∀ m, done m → done' m) {step : Step} (h : step.Passed s done) :
    step.Passed s done' := by
  cases step with
  | need m origin =>
      rcases h with hrel | ⟨hperm, hdone⟩
      · exact Or.inl hrel
      · exact Or.inr ⟨hperm, hsub m hdone⟩
  | copy r => trivial
  | hop r => trivial
  | meet r => trivial
  | reject e => exact h

/-! ## Settled memories -/

theorem Memory.get?_cons_self (memory : Memory) (m : Member) (x : Expansion) :
    Memory.get? ((m, x) :: memory) m = some x := by
  simp [Memory.get?]

theorem Memory.get?_cons_of_ne {memory : Memory} {m n : Member} {x : Expansion} (h : n ≠ m) :
    Memory.get? ((m, x) :: memory) n = memory.get? n := by
  have hb : (n == m) = false := by simpa using h
  simp only [Memory.get?, List.lookup_cons, hb]

theorem Memory.knows_cons {memory : Memory} {m n : Member} {x : Expansion} :
    Memory.knows ((m, x) :: memory) n = true ↔ n = m ∨ memory.knows n = true := by
  by_cases h : n = m
  · subst h
    simp [Memory.knows, Memory.get?_cons_self]
  · simp [Memory.knows, Memory.get?_cons_of_ne h, h]

theorem Memory.knows_cons_of_ne {memory : Memory} {m n : Member} {x : Expansion} (h : n ≠ m) :
    Memory.knows ((m, x) :: memory) n = memory.knows n := by
  rw [Memory.knows, Memory.knows, Memory.get?_cons_of_ne h]

/-- A member is taken care of when it is finished or being worked on. -/
def Memory.Covers (memory : Memory) (path : List Member) (m : Member) : Prop :=
  memory.knows m = true ∨ m ∈ path

/-- When a member leaves the path and is finished, it is taken care of still. -/
theorem Memory.Covers.finish {memory : Memory} {path : List Member} {m n : Member}
    (h : memory.Covers (path ++ [m]) n) (x : Expansion) :
    Memory.Covers ((m, x) :: memory) path n := by
  rcases h with hn | hn
  · exact Or.inl (Memory.knows_cons.mpr (Or.inr hn))
  · rcases List.mem_append.mp hn with hn | hn
    · exact Or.inr hn
    · exact Or.inl (Memory.knows_cons.mpr (Or.inl (List.mem_singleton.mp hn)))

/-- The memory agrees with the schema, and relies on nothing but itself and the
path. -/
structure Memory.Settled (s : Schema) (path : List Member) (memory : Memory) : Prop where
  /-- What is held is a permission, with the expansion of its own steps. -/
  expansion : ∀ m x, memory.get? m = some x →
    s.IsPermission m ∧ x = Expansion.ofSteps s (s.ownSteps m)
  /-- The steps of what is held have been passed. -/
  passed : ∀ m, memory.knows m = true →
    ∀ step ∈ s.ownSteps m, step.Passed s (memory.Covers path)

theorem Memory.settled_nil (s : Schema) (path : List Member) : Memory.Settled s path [] := by
  constructor
  · intro m x h
    simp [Memory.get?] at h
  · intro m h
    simp [Memory.knows, Memory.get?] at h

theorem Memory.Settled.get?_eq {s : Schema} {path : List Member} {memory : Memory}
    (h : memory.Settled s path) {m : Member} (hm : memory.knows m = true) :
    memory.get? m = some (Expansion.ofSteps s (s.ownSteps m)) := by
  obtain ⟨x, hx⟩ := Option.isSome_iff_exists.mp hm
  rw [hx, (h.expansion m x hx).2]

theorem Memory.Settled.isPermission {s : Schema} {path : List Member} {memory : Memory}
    (h : memory.Settled s path) {m : Member} (hm : memory.knows m = true) :
    s.IsPermission m := by
  obtain ⟨x, hx⟩ := Option.isSome_iff_exists.mp hm
  exact (h.expansion m x hx).1

/-- A longer path is no harder to rely on. -/
theorem Memory.Settled.lengthen {s : Schema} {path : List Member} {memory : Memory}
    (h : memory.Settled s path) (m : Member) : memory.Settled s (path ++ [m]) := by
  refine ⟨h.expansion, ?_⟩
  intro n hn step hstep
  refine (h.passed n hn step hstep).mono ?_
  intro k hk
  rcases hk with hk | hk
  · exact Or.inl hk
  · exact Or.inr (List.mem_append_left _ hk)

/-- A permission whose steps have been passed leaves the path and is finished. -/
theorem Memory.Settled.finish {s : Schema} {path : List Member} {memory : Memory} {m : Member}
    {t : ObjectType} {p : Permission} (h : memory.Settled s (path ++ [m]))
    (hfind : s.find m = .permission t p)
    (hsteps : ∀ step ∈ p.expr.steps t p.name, step.Passed s (memory.Covers (path ++ [m]))) :
    Memory.Settled s path ((m, Expansion.ofSteps s (p.expr.steps t p.name)) :: memory) := by
  have hown := Schema.ownSteps_of_find hfind
  constructor
  · intro n x hx
    by_cases hnm : n = m
    · subst hnm
      rw [Memory.get?_cons_self] at hx
      cases hx
      exact ⟨⟨t, p, hfind⟩, by rw [hown]⟩
    · rw [Memory.get?_cons_of_ne hnm] at hx
      exact h.expansion n x hx
  · intro n hn step hstep
    rcases Memory.knows_cons.mp hn with hnm | hn
    · subst hnm
      rw [hown] at hstep
      exact (hsteps step hstep).mono fun _ hk => hk.finish _
    · exact (h.passed n hn step hstep).mono fun _ hk => hk.finish _

/-! ## Following -/

/-- A needed name that calls for nothing has been passed. -/
theorem Schema.passed_of_judge_settled {s : Schema} {recursive : Bool} {path : List Member}
    {memory : Memory} {target origin : Member}
    (h : s.judge recursive path memory target origin = .settled) :
    (Step.need target origin).Passed s (memory.Covers path) := by
  rw [Schema.judge] at h
  split at h
  · cases h
  · cases h
  · rename_i r hfind
    exact Or.inl ⟨r, hfind⟩
  · rename_i t p hfind
    split at h
    · rename_i hknown
      exact Or.inr ⟨⟨t, p, hfind⟩, Or.inl hknown⟩
    · split at h
      · rename_i hpath
        exact Or.inr ⟨⟨t, p, hfind⟩, Or.inr hpath⟩
      · cases h

/-- Following steps to their end keeps the memory settled, forgets nothing, and
passes every step. -/
theorem Schema.follow_settled {s : Schema} {recursive : Bool} {path : List Member}
    {memory memory' : Memory} {steps : List Step}
    (hok : s.follow recursive path memory steps = .ok memory')
    (hsettled : memory.Settled s path) :
    memory'.Settled s path ∧ (∀ m, memory.knows m = true → memory'.knows m = true) ∧
      ∀ step ∈ steps, step.Passed s (memory'.Covers path) := by
  fun_induction Schema.follow s recursive path memory steps generalizing memory' with
  | case1 path memory =>
      cases hok
      exact ⟨hsettled, fun _ h => h, by simp⟩
  | case2 path memory target origin rest hjudge ih =>
      obtain ⟨hset, hkeep, hpassed⟩ := ih hok hsettled
      refine ⟨hset, hkeep, List.forall_mem_cons.mpr ⟨?_, hpassed⟩⟩
      exact (Schema.passed_of_judge_settled hjudge).mono fun m hm => hm.imp (hkeep m) id
  | case3 path memory target origin rest e hjudge => cases hok
  | case4 path memory target origin rest t p hjudge e hfail ih => cases hok
  | case5 path memory target origin rest t p hjudge inner hinner ihinner ih =>
      obtain ⟨hfind, _, _⟩ := Schema.of_judge_enter hjudge
      -- Inside, `target` stands on the path.  Afterwards it is finished, and what
      -- relied on the path finds it in the memory.
      obtain ⟨hset, hkeep, hpassed⟩ := ihinner hinner (hsettled.lengthen target)
      obtain ⟨hset', hkeep', hpassed'⟩ := ih hok (hset.finish hfind hpassed)
      have hforget : ∀ m, memory.knows m = true → memory'.knows m = true := fun m hm =>
        hkeep' m (Memory.knows_cons.mpr (Or.inr (hkeep m hm)))
      refine ⟨hset', hforget, List.forall_mem_cons.mpr ⟨?_, hpassed'⟩⟩
      exact Or.inr ⟨⟨t, p, hfind⟩, Or.inl (hkeep' target (Memory.knows_cons.mpr (Or.inl rfl)))⟩
  | case6 path memory r rest ih =>
      obtain ⟨hset, hkeep, hpassed⟩ := ih hok hsettled
      exact ⟨hset, hkeep, List.forall_mem_cons.mpr ⟨trivial, hpassed⟩⟩
  | case7 path memory r rest ih =>
      obtain ⟨hset, hkeep, hpassed⟩ := ih hok hsettled
      exact ⟨hset, hkeep, List.forall_mem_cons.mpr ⟨trivial, hpassed⟩⟩
  | case8 path memory r rest ih =>
      obtain ⟨hset, hkeep, hpassed⟩ := ih hok hsettled
      exact ⟨hset, hkeep, List.forall_mem_cons.mpr ⟨trivial, hpassed⟩⟩
  | case9 path memory e rest => cases hok

/-! ## Walking -/

/-- What steps need of the schema's permissions. -/
theorem Step.mem_permissions {s : Schema} {steps : List Step} {m : Member} :
    m ∈ Step.permissions s steps ↔ s.IsPermission m ∧ ∃ origin, .need m origin ∈ steps := by
  rw [Step.permissions, List.mem_filterMap]
  constructor
  · rintro ⟨step, hstep, h⟩
    cases step with
    | need n origin =>
        simp only at h
        split at h
        · rename_i t p hfind
          cases h
          exact ⟨⟨t, p, hfind⟩, origin, hstep⟩
        · cases h
    | copy r => cases h
    | hop r => cases h
    | meet r => cases h
    | reject e => cases h
  · rintro ⟨⟨t, p, hfind⟩, origin, hstep⟩
    refine ⟨.need m origin, hstep, ?_⟩
    simp only [hfind]

/-- With an empty path, a settled memory is closed under needs. -/
theorem Memory.Settled.knows_of_mem_needs {s : Schema} {memory : Memory}
    (h : memory.Settled s []) {m n : Member} (hn : n ∈ memory.needs m) :
    memory.knows n = true := by
  rw [Memory.needs] at hn
  split at hn
  · rename_i x hx
    have hknown : memory.knows m = true := by
      rw [Memory.knows, hx, Option.isSome_some]
    rw [(h.expansion m x hx).2] at hn
    obtain ⟨hperm, origin, hstep⟩ := Step.mem_permissions.mp hn
    rcases h.passed m hknown _ hstep with hrel | ⟨_, hcov⟩
    · exact absurd hrel (Schema.not_isRelation_of_isPermission hperm)
    · exact hcov.resolve_right (List.not_mem_nil)
  · cases hn

/-- The walk keeps what is listed already. -/
theorem Memory.subset_walk (memory : Memory) (path order todo : List Member) :
    order ⊆ memory.walk path order todo := by
  fun_induction Memory.walk memory path order todo with
  | case1 path order => exact List.Subset.refl order
  | case2 path order m rest hskip ih => exact ih
  | case3 path order m rest hnew ihneeds ih =>
      exact fun n hn => ih (List.mem_append_left _ (ihneeds hn))

/-- The walk lists all it was asked for, apart from what is being listed. -/
theorem Memory.mem_walk {memory : Memory} {path order todo : List Member} {m : Member}
    (hm : m ∈ todo) (hpath : m ∉ path) : m ∈ memory.walk path order todo := by
  fun_induction Memory.walk memory path order todo with
  | case1 path order => cases hm
  | case2 path order n rest hskip ih =>
      rcases List.mem_cons.mp hm with hmn | hm
      · subst hmn
        exact Memory.subset_walk memory path order rest (hskip.resolve_left hpath)
      · exact ih hm hpath
  | case3 path order n rest hnew ihneeds ih =>
      rcases List.mem_cons.mp hm with hmn | hm
      · subst hmn
        exact Memory.subset_walk memory path _ rest (List.mem_append_right _ (List.mem_singleton_self m))
      · exact ih hm hpath

/-- From finished permissions the walk of a settled memory comes to finished
permissions only. -/
theorem Memory.Settled.walk_knows {s : Schema} {memory : Memory} (h : memory.Settled s [])
    {path order todo : List Member} (horder : ∀ m ∈ order, memory.knows m = true)
    (htodo : ∀ m ∈ todo, memory.knows m = true) :
    ∀ m ∈ memory.walk path order todo, memory.knows m = true := by
  fun_induction Memory.walk memory path order todo with
  | case1 path order => exact horder
  | case2 path order n rest hskip ih =>
      exact ih horder fun m hm => htodo m (List.mem_cons_of_mem n hm)
  | case3 path order n rest hnew ihneeds ih =>
      have hneeds := ihneeds horder fun m hm => h.knows_of_mem_needs hm
      refine ih ?_ fun m hm => htodo m (List.mem_cons_of_mem n hm)
      intro m hm
      rcases List.mem_append.mp hm with hm | hm
      · exact hneeds m hm
      · rw [List.mem_singleton.mp hm]
        exact htodo n List.mem_cons_self

end Rebac
