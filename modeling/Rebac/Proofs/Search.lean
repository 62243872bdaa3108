import Mathlib.Logic.Relation
import Rebac.Proofs.Following

/-!
# Searching without a memory

The memory saves work and must not show.  `Schema.firstError` follows steps in the
same order as the resolver, but keeps nothing of what is finished and enters a
needed permission again each time, unless it stands on the path.  It gives the
error met first, if there is one.

Where an error comes from is a *trail*: permissions entered one out of the other,
and at the end a step that fails (`Schema.trail_of_firstError`).  So the search is
free of errors as soon as what is needed belongs to a set of permissions whose
steps stay in the set, and which do not reach themselves unless recursion is
allowed (`Schema.firstError_eq_none`).

A sound memory is such a set.  It is settled, holds nothing of the path, and if
recursion is not allowed nothing in it reaches itself.  From a sound memory
following fails exactly as the search does (`Memory.Sound.follow_eq_error_iff`), and
otherwise it leaves a sound memory behind (`Memory.Sound.follow`).
-/

namespace Rebac

/-! ## Needs -/

/-- The permissions that a permission needs by its own steps, in order. -/
def Schema.needs (s : Schema) (m : Member) : List Member := Step.permissions s (s.ownSteps m)

/-- The first permission needs the second one, directly or through others. -/
def Schema.Reaches (s : Schema) : Member → Member → Prop :=
  Relation.TransGen fun m n => n ∈ s.needs m

theorem Schema.mem_needs {s : Schema} {m n : Member} :
    n ∈ s.needs m ↔ s.IsPermission n ∧ ∃ origin, .need n origin ∈ s.ownSteps m :=
  Step.mem_permissions

/-- What a step needs of permissions has been taken care of. -/
theorem Step.Passed.of_need {s : Schema} {done : Member → Prop} {m origin : Member}
    (h : (Step.need m origin).Passed s done) (hm : s.IsPermission m) : done m := by
  rcases h with hrel | ⟨_, hdone⟩
  · exact absurd hrel (Schema.not_isRelation_of_isPermission hm)
  · exact hdone

/-! ## The first error -/

/-- The first error on the way along the steps, with every needed permission
entered anew. -/
def Schema.firstError (s : Schema) (recursive : Bool) (path : List Member) :
    List Step → Option CompileError
  | [] => none
  | .need target origin :: rest =>
      match _h : s.judge recursive path [] target origin with
      | .settled => s.firstError recursive path rest
      | .fail e => some e
      | .enter t p =>
          (s.firstError recursive (path ++ [target]) (p.expr.steps t p.name)).or
            (s.firstError recursive path rest)
  | .copy _ :: rest => s.firstError recursive path rest
  | .hop _ :: rest => s.firstError recursive path rest
  | .meet _ :: rest => s.firstError recursive path rest
  | .reject e :: _ => some e
termination_by steps => (offPath s.permissionMembers path, steps.length)
decreasing_by
  all_goals first
    | exact Prod.Lex.right _ (by simp)
    | (obtain ⟨hfind, _, hpath⟩ := Schema.of_judge_enter _h
       exact Prod.Lex.left _ _ (offPath_append_lt (Schema.mem_permissionMembers hfind) hpath))

section FirstError

variable {s : Schema} {recursive : Bool} {path : List Member} {target origin : Member}

theorem Schema.firstError_need_settled (h : s.judge recursive path [] target origin = .settled)
    (rest : List Step) : s.firstError recursive path (.need target origin :: rest) =
      s.firstError recursive path rest := by
  rw [Schema.firstError]
  split <;> simp_all

theorem Schema.firstError_need_fail {e : CompileError}
    (h : s.judge recursive path [] target origin = .fail e) (rest : List Step) :
    s.firstError recursive path (.need target origin :: rest) = some e := by
  rw [Schema.firstError]
  split <;> simp_all

theorem Schema.firstError_need_enter {t : ObjectType} {p : Permission}
    (h : s.judge recursive path [] target origin = .enter t p) (rest : List Step) :
    s.firstError recursive path (.need target origin :: rest) =
      (s.firstError recursive (path ++ [target]) (s.ownSteps target)).or
        (s.firstError recursive path rest) := by
  obtain ⟨hfind, _, _⟩ := Schema.of_judge_enter h
  rw [Schema.firstError, Schema.ownSteps_of_find hfind]
  split
  · simp_all
  · simp_all
  · rename_i hjudge
    cases h.symm.trans hjudge
    rfl

end FirstError

/-! ## Trails -/

/-- Following the steps on the path comes, through permissions that are entered one
out of the other, to a step on a longer path. -/
inductive Schema.Trail (s : Schema) : List Member → List Step → List Member → Step → Prop where
  | here {path : List Member} {steps : List Step} {step : Step} :
      step ∈ steps → Trail s path steps path step
  | enter {path path' : List Member} {steps : List Step} {step : Step} {m origin : Member} :
      .need m origin ∈ steps → s.IsPermission m → m ∉ path →
        Trail s (path ++ [m]) (s.ownSteps m) path' step → Trail s path steps path' step

/-- A step gives an error on the path. -/
inductive Step.Fails (s : Schema) (recursive : Bool) (path : List Member) :
    Step → CompileError → Prop where
  | noType {target origin : Member} : s.find target = .noType →
      Fails s recursive path (.need target origin) (.undefinedType target.type origin)
  | noName {target origin : Member} : s.find target = .noName →
      Fails s recursive path (.need target origin) (.undefinedReference target origin)
  | cycle {target origin : Member} : recursive = false → s.IsPermission target → target ∈ path →
      Fails s recursive path (.need target origin) (.cycle target (cycleFrom path target))
  | reject {e : CompileError} : Fails s recursive path (.reject e) e

theorem Schema.Trail.mono {s : Schema} {path path' : List Member} {steps steps' : List Step}
    {step : Step} (h : s.Trail path steps path' step) (hsub : steps ⊆ steps') :
    s.Trail path steps' path' step := by
  cases h with
  | here hstep => exact .here (hsub hstep)
  | enter hneed hperm hpath htrail => exact .enter (hsub hneed) hperm hpath htrail

theorem Schema.fails_of_judge {s : Schema} {recursive : Bool} {path : List Member}
    {memory : Memory} {target origin : Member} {e : CompileError}
    (h : s.judge recursive path memory target origin = .fail e) :
    (Step.need target origin).Fails s recursive path e := by
  rw [Schema.judge] at h
  split at h
  · rename_i hfind
    cases h
    exact .noType hfind
  · rename_i hfind
    cases h
    exact .noName hfind
  · cases h
  · rename_i t p hfind
    split at h
    · cases h
    · split at h
      · rename_i hpath
        split at h
        · cases h
        · rename_i hrec
          cases h
          exact .cycle (by simpa using hrec) ⟨t, p, hfind⟩ hpath
      · cases h

/-- An error of the search stands at the end of a trail. -/
theorem Schema.trail_of_firstError {s : Schema} {recursive : Bool} {path : List Member}
    {steps : List Step} {e : CompileError} (h : s.firstError recursive path steps = some e) :
    ∃ path' step, s.Trail path steps path' step ∧ step.Fails s recursive path' e := by
  -- A trail of the remaining steps is one of all steps.
  have tail : ∀ {path : List Member} {step : Step} {rest : List Step},
      (∃ path' step', s.Trail path rest path' step' ∧ step'.Fails s recursive path' e) →
      ∃ path' step', s.Trail path (step :: rest) path' step' ∧ step'.Fails s recursive path' e := by
    rintro path step rest ⟨path', step', htrail, hfails⟩
    exact ⟨path', step', htrail.mono (List.subset_cons_self step rest), hfails⟩
  fun_induction Schema.firstError s recursive path steps with
  | case1 path => cases h
  | case2 path target origin rest hjudge ih => exact tail (ih h)
  | case3 path target origin rest e' hjudge =>
      cases h
      exact ⟨path, _, .here List.mem_cons_self, Schema.fails_of_judge hjudge⟩
  | case4 path target origin rest t p hjudge ihenter ih =>
      rcases Option.or_eq_some_iff.mp h with h | ⟨_, h⟩
      · obtain ⟨path', step, htrail, hfails⟩ := ihenter h
        obtain ⟨hfind, _, hpath⟩ := Schema.of_judge_enter hjudge
        rw [← Schema.ownSteps_of_find hfind] at htrail
        exact ⟨path', step, .enter List.mem_cons_self ⟨t, p, hfind⟩ hpath htrail, hfails⟩
      · exact tail (ih h)
  | case5 path r rest ih => exact tail (ih h)
  | case6 path r rest ih => exact tail (ih h)
  | case7 path r rest ih => exact tail (ih h)
  | case8 path e' rest =>
      cases h
      exact ⟨path, _, .here List.mem_cons_self, .reject⟩

section Trail

variable {s : Schema} {path path' : List Member} {steps : List Step} {step : Step}

/-- From steps that are passed, with the steps of what is needed passed as well, a
trail comes to steps that are passed. -/
theorem Schema.Trail.passed {done : Member → Prop}
    (h : s.Trail path steps path' step) (hsteps : ∀ step ∈ steps, step.Passed s done)
    (hdone : ∀ m, done m → m ∉ path → ∀ step ∈ s.ownSteps m, step.Passed s done) :
    step.Passed s done := by
  induction h with
  | here hstep => exact hsteps _ hstep
  | @enter path path' steps step m origin hneed hperm hpath _ ih =>
      have hm := (hsteps _ hneed).of_need hperm
      refine ih (hdone m hm hpath) ?_
      intro n hn hnpath
      exact hdone n hn fun h => hnpath (List.mem_append_left _ h)

/-- What is entered on a trail to a needed permission reaches that permission. -/
theorem Schema.Trail.reaches {target origin : Member}
    (h : s.Trail path steps path' (.need target origin)) (htarget : s.IsPermission target) :
    (∃ m ∈ Step.permissions s steps, m = target ∨ s.Reaches m target) ∧
      ∀ m ∈ path', m ∈ path ∨ s.Reaches m target := by
  generalize hstep : Step.need target origin = step at h
  induction h with
  | here hmem =>
      subst hstep
      exact ⟨⟨target, Step.mem_permissions.mpr ⟨htarget, origin, hmem⟩, .inl rfl⟩,
        fun m hm => .inl hm⟩
  | @enter path path' steps step m from' hneed hperm hpath _ ih =>
      obtain ⟨⟨n, hn, hreach⟩, hpath'⟩ := ih hstep
      have hm : s.Reaches m target := by
        rcases hreach with rfl | hreach
        · exact .single hn
        · exact .head hn hreach
      refine ⟨⟨m, Step.mem_permissions.mpr ⟨hperm, from', hneed⟩, .inr hm⟩, ?_⟩
      intro k hk
      rcases hpath' k hk with hk | hk
      · rcases List.mem_append.mp hk with hk | hk
        · exact .inl hk
        · exact .inr (List.mem_singleton.mp hk ▸ hm)
      · exact .inr hk

/-- The search finds no error among permissions whose steps lead to each other, if
those that it may enter do not reach themselves or may do so. -/
theorem Schema.firstError_eq_none {recursive : Bool} (done : Member → Prop)
    (hsteps : ∀ step ∈ steps, step.Passed s done)
    (hdone : ∀ m, done m → m ∉ path → ∀ step ∈ s.ownSteps m, step.Passed s done)
    (hcycle : recursive = false → ∀ m, done m → m ∉ path ∧ ¬ s.Reaches m m) :
    s.firstError recursive path steps = none := by
  rw [Option.eq_none_iff_forall_ne_some]
  intro e herror
  obtain ⟨path', step, htrail, hfails⟩ := Schema.trail_of_firstError herror
  have hpassed := htrail.passed hsteps hdone
  cases hfails with
  | noType hfind =>
      rcases hpassed with ⟨r, hr⟩ | ⟨⟨t, p, hp⟩, _⟩
      · simp [hfind] at hr
      · simp [hfind] at hp
  | noName hfind =>
      rcases hpassed with ⟨r, hr⟩ | ⟨⟨t, p, hp⟩, _⟩
      · simp [hfind] at hr
      · simp [hfind] at hp
  | @cycle target origin hrec htarget hmem =>
      -- A permission on the trail that is needed again reaches itself.
      obtain ⟨hpath, hacyclic⟩ := hcycle hrec target (hpassed.of_need htarget)
      rcases (htrail.reaches htarget).2 target hmem with h | h
      · exact hpath h
      · exact hacyclic h
  | reject => exact hpassed

end Trail

/-! ## Sound memories -/

/-- The memory is closed under needs, whatever the path, and nothing in it reaches
itself. -/
structure Memory.Grounded (s : Schema) (memory : Memory) : Prop where
  passed : ∀ m, memory.knows m = true →
    ∀ step ∈ s.ownSteps m, step.Passed s fun n => memory.knows n = true
  acyclic : ∀ m, memory.knows m = true → ¬ s.Reaches m m

/-- What the resolver keeps true of its memory, on a path. -/
structure Memory.Sound (s : Schema) (recursive : Bool) (path : List Member) (memory : Memory) :
    Prop where
  settled : memory.Settled s path
  /-- What is being worked on is not finished. -/
  apart : ∀ m ∈ path, memory.knows m = false
  grounded : recursive = false → memory.Grounded s

theorem Memory.knows_nil (m : Member) : Memory.knows [] m = false := rfl

theorem Memory.sound_nil (s : Schema) (recursive : Bool) (path : List Member) :
    Memory.Sound s recursive path [] where
  settled := Memory.settled_nil s path
  apart m _ := Memory.knows_nil m
  grounded _ := ⟨by simp [Memory.knows_nil], by simp [Memory.knows_nil]⟩

theorem Memory.Grounded.knows_of_reaches {s : Schema} {memory : Memory} (h : memory.Grounded s)
    {m n : Member} (hreach : s.Reaches m n) (hm : memory.knows m = true) :
    memory.knows n = true := by
  have step : ∀ {k l : Member}, memory.knows k = true → l ∈ s.needs k → memory.knows l = true := by
    intro k l hk hl
    obtain ⟨hperm, origin, hneed⟩ := Schema.mem_needs.mp hl
    exact (h.passed k hk _ hneed).of_need hperm
  induction hreach with
  | single hn => exact step hm hn
  | tail _ hn ih => exact step ih hn

/-- A new permission whose needs are held leaves the memory grounded.  It is not among
what its needs reach, since all that is held already. -/
theorem Memory.Grounded.cons {s : Schema} {memory : Memory} (h : memory.Grounded s) {m : Member}
    {x : Expansion} (hm : memory.knows m = false)
    (hsteps : ∀ step ∈ s.ownSteps m, step.Passed s fun n => memory.knows n = true) :
    Memory.Grounded s ((m, x) :: memory) := by
  constructor
  · intro n hn step hstep
    have hpassed : step.Passed s fun n => memory.knows n = true := by
      rcases Memory.knows_cons.mp hn with rfl | hn
      · exact hsteps step hstep
      · exact h.passed n hn step hstep
    exact hpassed.mono fun k hk => Memory.knows_cons.mpr (.inr hk)
  · intro n hn hreach
    rcases Memory.knows_cons.mp hn with rfl | hn
    · obtain ⟨k, hk, hback⟩ := Relation.TransGen.head'_iff.mp hreach
      obtain ⟨hperm, origin, hneed⟩ := Schema.mem_needs.mp hk
      have hknown : memory.knows k = true := (hsteps _ hneed).of_need hperm
      rcases Relation.reflTransGen_iff_eq_or_transGen.mp hback with rfl | hback
      · simp [hm] at hknown
      · simp [h.knows_of_reaches hback hknown] at hm
    · exact h.acyclic n hn hreach

section Sound

variable {s : Schema} {recursive : Bool} {path : List Member} {memory : Memory}

/-- A permission that is not finished can be put on the path. -/
theorem Memory.Sound.lengthen (h : memory.Sound s recursive path) {m : Member}
    (hm : memory.knows m = false) : memory.Sound s recursive (path ++ [m]) where
  settled := h.settled.lengthen m
  apart n hn := by
    rcases List.mem_append.mp hn with hn | hn
    · exact h.apart n hn
    · rw [List.mem_singleton.mp hn]
      exact hm
  grounded := h.grounded

theorem Memory.Sound.finish {m : Member} {t : ObjectType} {p : Permission}
    (h : memory.Sound s recursive (path ++ [m])) (hpath : m ∉ path)
    (hfind : s.find m = .permission t p)
    (hsteps : ∀ step ∈ s.ownSteps m, step.Passed s (memory.Covers (path ++ [m])))
    (hgrounded : recursive = false →
      ∀ step ∈ s.ownSteps m, step.Passed s fun n => memory.knows n = true) :
    Memory.Sound s recursive path ((m, Expansion.ofSteps s (p.expr.steps t p.name)) :: memory) where
  settled := by
    rw [Schema.ownSteps_of_find hfind] at hsteps
    exact h.settled.finish hfind hsteps
  apart n hn := by
    have hne : n ≠ m := fun h => hpath (h ▸ hn)
    rw [Memory.knows_cons_of_ne hne]
    exact h.apart n (List.mem_append_left _ hn)
  grounded hrec := (h.grounded hrec).cons
    (h.apart m (List.mem_append_right _ (List.mem_singleton_self m))) (hgrounded hrec)

/-- Without recursion a needed name that calls for nothing is a relation or finished. -/
theorem Schema.passed_of_judge_false {target origin : Member}
    (h : s.judge false path memory target origin = .settled) :
    (Step.need target origin).Passed s fun n => memory.knows n = true := by
  rw [Schema.judge] at h
  split at h
  · cases h
  · cases h
  · rename_i r hfind
    exact .inl ⟨r, hfind⟩
  · rename_i t p hfind
    split at h
    · rename_i hknown
      exact .inr ⟨⟨t, p, hfind⟩, hknown⟩
    · split at h <;> simp at h

/-- Following keeps the memory sound.  Without recursion every step finds what it
needs in the memory itself. -/
theorem Memory.Sound.follow {memory' : Memory} {steps : List Step}
    (h : memory.Sound s recursive path)
    (hok : s.follow recursive path memory steps = .ok memory') :
    memory'.Sound s recursive path ∧ (recursive = false →
      ∀ step ∈ steps, step.Passed s fun n => memory'.knows n = true) := by
  fun_induction Schema.follow s recursive path memory steps generalizing memory' with
  | case1 path memory =>
      cases hok
      exact ⟨h, by simp⟩
  | case2 path memory target origin rest hjudge ih =>
      obtain ⟨hsound, hrest⟩ := ih h hok
      obtain ⟨_, hkeep, _⟩ := Schema.follow_settled hok h.settled
      refine ⟨hsound, fun hrec => List.forall_mem_cons.mpr ⟨?_, hrest hrec⟩⟩
      subst hrec
      exact (Schema.passed_of_judge_false hjudge).mono hkeep
  | case3 path memory target origin rest e hjudge => cases hok
  | case4 path memory target origin rest t p hjudge e hfail ih => cases hok
  | case5 path memory target origin rest t p hjudge inner hinner ihinner ih =>
      obtain ⟨hfind, hnew, hpath⟩ := Schema.of_judge_enter hjudge
      have hlong := h.lengthen hnew
      obtain ⟨hsound, hsteps⟩ := ihinner hlong hinner
      obtain ⟨_, _, hpassed⟩ := Schema.follow_settled hinner hlong.settled
      rw [← Schema.ownSteps_of_find hfind] at hsteps hpassed
      have hfinish := hsound.finish hpath hfind hpassed hsteps
      obtain ⟨hsound', hrest⟩ := ih hfinish hok
      obtain ⟨_, hkeep, _⟩ := Schema.follow_settled hok hfinish.settled
      refine ⟨hsound', fun hrec => List.forall_mem_cons.mpr ⟨?_, hrest hrec⟩⟩
      exact .inr ⟨⟨t, p, hfind⟩, hkeep target (Memory.knows_cons.mpr (.inl rfl))⟩
  | case6 path memory r rest ih =>
      obtain ⟨hsound, hrest⟩ := ih h hok
      exact ⟨hsound, fun hrec => List.forall_mem_cons.mpr ⟨trivial, hrest hrec⟩⟩
  | case7 path memory r rest ih =>
      obtain ⟨hsound, hrest⟩ := ih h hok
      exact ⟨hsound, fun hrec => List.forall_mem_cons.mpr ⟨trivial, hrest hrec⟩⟩
  | case8 path memory r rest ih =>
      obtain ⟨hsound, hrest⟩ := ih h hok
      exact ⟨hsound, fun hrec => List.forall_mem_cons.mpr ⟨trivial, hrest hrec⟩⟩
  | case9 path memory e rest => cases hok

/-- A permission whose steps have been followed leaves the path. -/
theorem Memory.Sound.finish_follow {inner : Memory} {m : Member} {t : ObjectType} {p : Permission}
    (h : memory.Sound s recursive (path ++ [m])) (hpath : m ∉ path)
    (hfind : s.find m = .permission t p)
    (hok : s.follow recursive (path ++ [m]) memory (p.expr.steps t p.name) = .ok inner) :
    Memory.Sound s recursive path
      ((m, Expansion.ofSteps s (p.expr.steps t p.name)) :: inner) := by
  obtain ⟨hsound, hgrounded⟩ := h.follow hok
  obtain ⟨_, _, hpassed⟩ := Schema.follow_settled hok h.settled
  rw [← Schema.ownSteps_of_find hfind] at hgrounded hpassed
  exact hsound.finish hpath hfind hpassed hgrounded

/-! ## Following as the search does -/

/-- The memory matters to a verdict only where it knows the target. -/
theorem Schema.judge_nil {target origin : Member} (h : memory.knows target = false) :
    s.judge recursive path [] target origin = s.judge recursive path memory target origin := by
  rw [Schema.judge, Schema.judge, Memory.knows_nil, h]

theorem Memory.Settled.judge_eq_settled (h : memory.Settled s path) {target : Member}
    (hknown : memory.knows target = true) (origin : Member) :
    s.judge recursive path memory target origin = .settled := by
  obtain ⟨t, p, hfind⟩ := h.isPermission hknown
  simp [Schema.judge, hfind, hknown]

/-- The search finds no error at what the memory knows. -/
theorem Memory.Sound.firstError_known (h : memory.Sound s recursive path) {target origin : Member}
    (hknown : memory.knows target = true) (rest : List Step) :
    s.firstError recursive path (.need target origin :: rest) =
      s.firstError recursive path rest := by
  have hperm := h.settled.isPermission hknown
  have hpath : ∀ m, memory.knows m = true → m ∉ path := fun m hm hmem => by
    simp [h.apart m hmem] at hm
  have hclear : s.firstError recursive path [.need target origin] = none := by
    cases recursive with
    | true =>
        -- What is known relies on the memory and the path.
        refine Schema.firstError_eq_none (memory.Covers path) ?_ ?_ (by simp)
        · simpa using .inr ⟨hperm, .inl hknown⟩
        · exact fun m hm hmem => h.settled.passed m (hm.resolve_right hmem)
    | false =>
        -- What is known relies on the memory alone, and does not reach itself.
        have hgrounded := h.grounded rfl
        refine Schema.firstError_eq_none (fun m => memory.knows m = true) ?_ ?_ ?_
        · simpa using .inr ⟨hperm, hknown⟩
        · exact fun m hm _ => hgrounded.passed m hm
        · exact fun _ m hm => ⟨hpath m hm, hgrounded.acyclic m hm⟩
  obtain ⟨t, p, hfind⟩ := hperm
  have hjudge : s.judge recursive path [] target origin = .enter t p := by
    simp [Schema.judge, hfind, Memory.knows_nil, hpath target hknown]
  rw [Schema.firstError_need_enter hjudge, Option.or_eq_none_iff] at hclear
  rw [Schema.firstError_need_enter hjudge, hclear.1, Option.none_or]

/-- From a sound memory following fails as the search does. -/
theorem Memory.Sound.follow_eq_error_iff {steps : List Step} (h : memory.Sound s recursive path)
    (e : CompileError) : s.follow recursive path memory steps = .error e ↔
      s.firstError recursive path steps = some e := by
  fun_induction Schema.follow s recursive path memory steps generalizing e with
  | case1 path memory => simp [Schema.firstError]
  | case2 path memory target origin rest hjudge ih =>
      by_cases hknown : memory.knows target = true
      · rw [h.firstError_known hknown]
        exact ih h e
      · rw [← Schema.judge_nil (by simpa using hknown)] at hjudge
        rw [Schema.firstError_need_settled hjudge]
        exact ih h e
  | case3 path memory target origin rest e' hjudge =>
      have hnew : memory.knows target = false := by
        rw [Bool.eq_false_iff]
        intro hknown
        rw [h.settled.judge_eq_settled hknown] at hjudge
        cases hjudge
      rw [← Schema.judge_nil hnew] at hjudge
      simp [Schema.firstError_need_fail hjudge]
  | case4 path memory target origin rest t p hjudge e' hfail ih =>
      obtain ⟨hfind, hnew, _⟩ := Schema.of_judge_enter hjudge
      have hinner := (ih (h.lengthen hnew) e').mp hfail
      rw [← Schema.judge_nil hnew] at hjudge
      rw [← Schema.ownSteps_of_find hfind] at hinner
      simp [Schema.firstError_need_enter hjudge, hinner]
  | case5 path memory target origin rest t p hjudge inner hinner ihinner ih =>
      obtain ⟨hfind, hnew, hpath⟩ := Schema.of_judge_enter hjudge
      have hlong := h.lengthen hnew
      have hclear : s.firstError recursive (path ++ [target]) (s.ownSteps target) = none := by
        rw [Option.eq_none_iff_forall_ne_some]
        intro e' he'
        rw [Schema.ownSteps_of_find hfind, ← ihinner hlong e', hinner] at he'
        cases he'
      rw [← Schema.judge_nil hnew] at hjudge
      rw [Schema.firstError_need_enter hjudge, hclear, Option.none_or]
      exact ih (hlong.finish_follow hpath hfind hinner) e
  | case6 path memory r rest ih => simpa [Schema.firstError] using ih h e
  | case7 path memory r rest ih => simpa [Schema.firstError] using ih h e
  | case8 path memory r rest ih => simpa [Schema.firstError] using ih h e
  | case9 path memory e' rest => simp [Schema.firstError]

theorem Memory.Sound.exists_follow_eq_ok_iff {steps : List Step}
    (h : memory.Sound s recursive path) :
    (∃ memory', s.follow recursive path memory steps = .ok memory') ↔
      s.firstError recursive path steps = none := by
  cases hfollow : s.follow recursive path memory steps with
  | error e => simp [(h.follow_eq_error_iff e).mp hfollow]
  | ok memory' =>
      simp only [Except.ok.injEq, exists_eq', true_iff]
      rw [Option.eq_none_iff_forall_ne_some]
      intro e he
      rw [← h.follow_eq_error_iff e, hfollow] at he
      cases he

end Sound

end Rebac
