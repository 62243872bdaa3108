import Rebac.Proofs.WarmResolver

/-!
# Resolution as a machine

`Schema.follow` enters permissions by recursion, so what is being worked on is known only to the
calls under way.  Here the same work is done by a machine whose states show it.  A state holds the
memory, the permissions in progress, and a *frame* for each call under way: the permission that was
entered, what its caller had gathered, and the steps its caller still has to take.

Taking a step adds to what is gathered, enters a permission or fails.  A permission whose steps are
all taken leaves what is in progress, and goes into the memory with what it gathered.  A failure
leaves the calls one by one and puts nothing into the memory.

From every state the machine does what following does, with the calls that were under way left as
they were (`Schema.steps_of_follow_ok`, `Schema.steps_of_follow_error`).  So a call of the machine
comes to an end, and there it has the answer and the memory that `Resolver.order` gives
(`Resolver.exists_ending`).
-/

namespace Rebac

/-! ## States -/

/-- A call under way. -/
structure Frame where
  /-- The permission that was entered. -/
  key : Member
  /-- What its caller had gathered. -/
  out : Expansion
  /-- The steps that its caller takes next. -/
  rest : List Step
  deriving Repr, DecidableEq

/-- What the machine is about. -/
inductive Phase where
  /-- Steps are taken, and what they give is gathered. -/
  | working (out : Expansion) (rest : List Step)
  /-- An error is handed to the callers. -/
  | failing (error : CompileError)
  deriving Repr, DecidableEq

/-- What a resolver holds: the finished permissions, and those in progress, outermost first. -/
structure Holdings where
  memory : Memory
  inProgress : List Member
  deriving Repr, DecidableEq

/-- A state of the machine, with the calls under way, innermost first. -/
structure Traversal extends Holdings where
  frames : List Frame
  phase : Phase
  deriving Repr, DecidableEq

/-- Nothing is gathered yet. -/
def Expansion.empty : Expansion := ⟨[], [], []⟩

/-- Notes a permission as relied on. -/
def Expansion.rely (x : Expansion) (m : Member) : Expansion := { x with needs := x.needs ++ [m] }

/-- Adds what a step gives. -/
def Expansion.gather (s : Schema) (x : Expansion) : Step → Expansion
  | .copy r => { x with unary := x.unary ++ [r] }
  | .hop r | .meet r => { x with binary := x.binary ++ [r] }
  | .need m _ =>
      match s.find m with
      | .permission _ _ => x.rely m
      | _ => x
  | .reject _ => x

/-- The state in which a name is asked for. -/
def Traversal.start (held : Holdings) (m : Member) : Traversal where
  toHoldings := held
  frames := []
  phase := .working .empty [.need m m]

/-- The next state, if there is one. -/
def Traversal.step (s : Schema) (recursive : Bool) : Traversal → Option Traversal
  | ⟨⟨memory, path⟩, frames, .working out (.need target origin :: rest)⟩ =>
      match s.judge recursive path memory target origin with
      | .settled =>
          some ⟨⟨memory, path⟩, frames, .working (out.gather s (.need target origin)) rest⟩
      | .fail e => some ⟨⟨memory, path⟩, frames, .failing e⟩
      | .enter t p => some ⟨⟨memory, path ++ [target]⟩, ⟨target, out, rest⟩ :: frames,
          .working .empty (p.expr.steps t p.name)⟩
  | ⟨held, frames, .working out (.copy r :: rest)⟩ =>
      some ⟨held, frames, .working (out.gather s (.copy r)) rest⟩
  | ⟨held, frames, .working out (.hop r :: rest)⟩ =>
      some ⟨held, frames, .working (out.gather s (.hop r)) rest⟩
  | ⟨held, frames, .working out (.meet r :: rest)⟩ =>
      some ⟨held, frames, .working (out.gather s (.meet r)) rest⟩
  | ⟨held, frames, .working _ (.reject e :: _)⟩ => some ⟨held, frames, .failing e⟩
  | ⟨⟨memory, path⟩, frame :: frames, .working out []⟩ =>
      some ⟨⟨(frame.key, out) :: memory, path.dropLast⟩, frames,
        .working (frame.out.rely frame.key) frame.rest⟩
  | ⟨⟨memory, path⟩, _ :: frames, .failing e⟩ =>
      some ⟨⟨memory, path.dropLast⟩, frames, .failing e⟩
  | ⟨_, [], .working _ []⟩ => none
  | ⟨_, [], .failing _⟩ => none

/-- The answer to the name asked for and what is held afterwards, once no call is under way.  After
a failure the memory is emptied. -/
def Traversal.ending? (τ : Traversal) : Option (Except CompileError (List Member) × Holdings) :=
  match τ.frames, τ.phase with
  | [], .working out [] => some (.ok (τ.memory.walk [] [] out.needs), τ.toHoldings)
  | [], .failing e => some (.error e, { τ.toHoldings with memory := [] })
  | _, _ => none

/-- The machine gets from one state to another. -/
def Schema.Steps (s : Schema) (recursive : Bool) : Traversal → Traversal → Prop :=
  Relation.ReflTransGen fun τ τ' => τ.step s recursive = some τ'

/-- What a step of the machine can do. -/
inductive Traversal.Move (s : Schema) (recursive : Bool) : Traversal → Traversal → Prop where
  /-- A step is passed, and what it gives is gathered. -/
  | gather {held : Holdings} {frames : List Frame} {out : Expansion} {step : Step}
      {rest : List Step} : step.Passed s (held.memory.Covers held.inProgress) →
        Move s recursive ⟨held, frames, .working out (step :: rest)⟩
          ⟨held, frames, .working (out.gather s step) rest⟩
  /-- A step is not passed. -/
  | fail {held : Holdings} {frames : List Frame} {out : Expansion} {step : Step}
      {rest : List Step} (e : CompileError) :
        Move s recursive ⟨held, frames, .working out (step :: rest)⟩ ⟨held, frames, .failing e⟩
  /-- A needed permission is entered. -/
  | enter {memory : Memory} {path : List Member} {frames : List Frame} {out : Expansion}
      {target origin : Member} {rest : List Step} {t : ObjectType} {p : Permission} :
        s.judge recursive path memory target origin = .enter t p →
          Move s recursive ⟨⟨memory, path⟩, frames, .working out (.need target origin :: rest)⟩
            ⟨⟨memory, path ++ [target]⟩, ⟨target, out, rest⟩ :: frames,
              .working .empty (p.expr.steps t p.name)⟩
  /-- The steps of a permission are all taken, and it is finished. -/
  | finish {memory : Memory} {path : List Member} {frame : Frame} {frames : List Frame}
      {out : Expansion} : Move s recursive ⟨⟨memory, path⟩, frame :: frames, .working out []⟩
        ⟨⟨(frame.key, out) :: memory, path.dropLast⟩, frames,
          .working (frame.out.rely frame.key) frame.rest⟩
  /-- An error leaves a call. -/
  | leave {memory : Memory} {path : List Member} {frame : Frame} {frames : List Frame}
      {e : CompileError} : Move s recursive ⟨⟨memory, path⟩, frame :: frames, .failing e⟩
        ⟨⟨memory, path.dropLast⟩, frames, .failing e⟩

/-- A step of the machine does one of these. -/
theorem Traversal.move_of_step {s : Schema} {recursive : Bool} {τ τ' : Traversal}
    (hstep : τ.step s recursive = some τ') : Traversal.Move s recursive τ τ' := by
  fun_cases Traversal.step s recursive τ with
  | case1 memory path frames out target origin rest hjudge =>
      simp only [Traversal.step, hjudge, Option.some.injEq] at hstep
      subst hstep
      exact .gather (Schema.passed_of_judge_settled hjudge)
  | case2 memory path frames out target origin rest e hjudge =>
      simp only [Traversal.step, hjudge, Option.some.injEq] at hstep
      subst hstep
      exact .fail e
  | case3 memory path frames out target origin rest t p hjudge =>
      simp only [Traversal.step, hjudge, Option.some.injEq] at hstep
      subst hstep
      exact .enter hjudge
  | case4 held frames out r rest =>
      cases hstep
      exact .gather trivial
  | case5 held frames out r rest =>
      cases hstep
      exact .gather trivial
  | case6 held frames out r rest =>
      cases hstep
      exact .gather trivial
  | case7 held frames out e rest =>
      cases hstep
      exact .fail e
  | case8 memory path frame frames out =>
      cases hstep
      exact .finish
  | case9 memory path frame frames e =>
      cases hstep
      exact .leave
  | case10 held out => cases hstep
  | case11 held e => cases hstep

/-! ## Gathering -/

theorem Expansion.gather_need {s : Schema} {m : Member} (h : s.IsPermission m) (x : Expansion)
    (origin : Member) : x.gather s (.need m origin) = x.rely m := by
  obtain ⟨t, p, hfind⟩ := h
  simp only [Expansion.gather, hfind]

/-- What a step gives is added at the end. -/
theorem Expansion.ofSteps_concat (s : Schema) (steps : List Step) (step : Step) :
    Expansion.ofSteps s (steps ++ [step]) = (Expansion.ofSteps s steps).gather s step := by
  cases step with
  | need m origin =>
      cases hfind : s.find m <;>
        simp [Expansion.ofSteps, Expansion.gather, Expansion.rely, Step.unaryRules,
          Step.binaryRules, Step.permissions, List.filterMap_append, hfind]
  | copy r => simp [Expansion.ofSteps, Expansion.gather, Step.unaryRules, Step.binaryRules,
      Step.permissions, List.filterMap_append]
  | hop r => simp [Expansion.ofSteps, Expansion.gather, Step.unaryRules, Step.binaryRules,
      Step.permissions, List.filterMap_append]
  | meet r => simp [Expansion.ofSteps, Expansion.gather, Step.unaryRules, Step.binaryRules,
      Step.permissions, List.filterMap_append]
  | reject e => simp [Expansion.ofSteps, Expansion.gather, Step.unaryRules, Step.binaryRules,
      Step.permissions, List.filterMap_append]

/-- Step by step as much is gathered as from all steps at once. -/
theorem Expansion.foldl_gather (s : Schema) (done steps : List Step) :
    steps.foldl (Expansion.gather s) (.ofSteps s done) = .ofSteps s (done ++ steps) := by
  induction steps generalizing done with
  | nil => simp
  | cons step steps ih =>
      rw [List.foldl_cons, ← Expansion.ofSteps_concat, ih, List.append_assoc, List.singleton_append]

theorem Expansion.foldl_gather_empty (s : Schema) (steps : List Step) :
    steps.foldl (Expansion.gather s) .empty = .ofSteps s steps :=
  Expansion.foldl_gather s [] steps

/-! ## The machine follows -/

section Follow

variable {s : Schema} {recursive : Bool} {path : List Member} {memory : Memory} {steps : List Step}

/-- A permission is entered, its steps are taken, and it is finished. -/
theorem Schema.steps_visit {target origin : Member} {t : ObjectType} {p : Permission}
    {inner : Memory} {out : Expansion} {frames : List Frame}
    (hjudge : s.judge recursive path memory target origin = .enter t p)
    (hinside : s.Steps recursive
      ⟨⟨memory, path ++ [target]⟩, ⟨target, out, steps⟩ :: frames,
        .working .empty (p.expr.steps t p.name)⟩
      ⟨⟨inner, path ++ [target]⟩, ⟨target, out, steps⟩ :: frames,
        .working ((p.expr.steps t p.name).foldl (Expansion.gather s) .empty) []⟩) :
    s.Steps recursive ⟨⟨memory, path⟩, frames, .working out (.need target origin :: steps)⟩
      ⟨⟨(target, .ofSteps s (p.expr.steps t p.name)) :: inner, path⟩, frames,
        .working (out.gather s (.need target origin)) steps⟩ := by
  obtain ⟨hfind, _, _⟩ := Schema.of_judge_enter hjudge
  refine .head ?_ (hinside.tail ?_)
  · simp only [Traversal.step, hjudge]
  · simp only [Traversal.step, List.dropLast_concat, Expansion.gather_need ⟨t, p, hfind⟩,
      Expansion.foldl_gather_empty]

/-- Where following succeeds the machine takes all steps. -/
theorem Schema.steps_of_follow_ok {memory' : Memory}
    (h : s.follow recursive path memory steps = .ok memory') (frames : List Frame)
    (out : Expansion) :
    s.Steps recursive ⟨⟨memory, path⟩, frames, .working out steps⟩
      ⟨⟨memory', path⟩, frames, .working (steps.foldl (Expansion.gather s) out) []⟩ := by
  fun_induction Schema.follow s recursive path memory steps generalizing memory' frames out with
  | case1 path memory =>
      cases h
      exact .refl
  | case2 path memory target origin rest hjudge ih =>
      refine .head ?_ (ih h frames (out.gather s (.need target origin)))
      simp only [Traversal.step, hjudge]
  | case3 path memory target origin rest e hjudge => cases h
  | case4 path memory target origin rest t p hjudge e hfail ih => cases h
  | case5 path memory target origin rest t p hjudge inner hinner ihinner ih =>
      have hinside := ihinner hinner (⟨target, out, rest⟩ :: frames) .empty
      exact (Schema.steps_visit hjudge hinside).trans (ih h frames _)
  | case6 path memory r rest ih => exact .head rfl (ih h frames _)
  | case7 path memory r rest ih => exact .head rfl (ih h frames _)
  | case8 path memory r rest ih => exact .head rfl (ih h frames _)
  | case9 path memory e rest => cases h

/-- Where following fails the machine fails with the same error, and has left the calls that it
entered on the way. -/
theorem Schema.steps_of_follow_error {e : CompileError}
    (h : s.follow recursive path memory steps = .error e) (frames : List Frame)
    (out : Expansion) : ∃ memory', s.Steps recursive
      ⟨⟨memory, path⟩, frames, .working out steps⟩ ⟨⟨memory', path⟩, frames, .failing e⟩ := by
  fun_induction Schema.follow s recursive path memory steps generalizing frames out with
  | case1 path memory => cases h
  | case2 path memory target origin rest hjudge ih =>
      obtain ⟨memory', hsteps⟩ := ih h frames (out.gather s (.need target origin))
      refine ⟨memory', .head ?_ hsteps⟩
      simp only [Traversal.step, hjudge]
  | case3 path memory target origin rest e hjudge =>
      cases h
      refine ⟨memory, .single ?_⟩
      simp only [Traversal.step, hjudge]
  | case4 path memory target origin rest t p hjudge e hfail ih =>
      cases h
      obtain ⟨memory', hsteps⟩ := ih hfail (⟨target, out, rest⟩ :: frames) .empty
      refine ⟨memory', .head ?_ (hsteps.tail ?_)⟩
      · simp only [Traversal.step, hjudge]
      · simp only [Traversal.step, List.dropLast_concat]
  | case5 path memory target origin rest t p hjudge inner hinner ihinner ih =>
      have hinside := Schema.steps_of_follow_ok hinner (⟨target, out, rest⟩ :: frames) .empty
      obtain ⟨memory', hsteps⟩ := ih h frames (out.gather s (.need target origin))
      exact ⟨memory', (Schema.steps_visit hjudge hinside).trans hsteps⟩
  | case6 path memory r rest ih =>
      obtain ⟨memory', hsteps⟩ := ih h frames (out.gather s (.copy r))
      exact ⟨memory', .head rfl hsteps⟩
  | case7 path memory r rest ih =>
      obtain ⟨memory', hsteps⟩ := ih h frames (out.gather s (.hop r))
      exact ⟨memory', .head rfl hsteps⟩
  | case8 path memory r rest ih =>
      obtain ⟨memory', hsteps⟩ := ih h frames (out.gather s (.meet r))
      exact ⟨memory', .head rfl hsteps⟩
  | case9 path memory e rest =>
      cases h
      exact ⟨memory, .single rfl⟩

end Follow

/-! ## Endings -/

theorem Traversal.step_eq_none_of_ending {τ : Traversal}
    {x : Except CompileError (List Member) × Holdings} (h : τ.ending? = some x) (s : Schema)
    (recursive : Bool) : τ.step s recursive = none := by
  obtain ⟨held, frames, phase⟩ := τ
  rw [Traversal.ending?] at h
  split at h
  · simp_all [Traversal.step]
  · simp_all [Traversal.step]
  · cases h

/-- The machine has one way to go, so its endings agree. -/
theorem Schema.Steps.ending_unique {s : Schema} {recursive : Bool} {τ τ₁ τ₂ : Traversal}
    {x₁ x₂ : Except CompileError (List Member) × Holdings} (h₁ : s.Steps recursive τ τ₁)
    (h₂ : s.Steps recursive τ τ₂) (hx₁ : τ₁.ending? = some x₁) (hx₂ : τ₂.ending? = some x₂) :
    x₁ = x₂ := by
  have hunique : Relator.RightUnique
      fun τ τ' : Traversal => τ.step s recursive = some τ' := by
    intro a b c hb hc
    exact Option.some.inj (hb.symm.trans hc)
  -- One run continues the other, and from an ending there is nowhere to go.
  have hend : ∀ {τ τ' x}, s.Steps recursive τ τ' → τ.ending? = some x → τ = τ' := by
    intro τ τ' x hsteps hx
    rcases Relation.ReflTransGen.cases_head hsteps with h | ⟨_, hstep, _⟩
    · exact h
    · rw [Traversal.step_eq_none_of_ending hx] at hstep
      cases hstep
  rcases Relation.ReflTransGen.total_of_right_unique hunique h₁ h₂ with h | h
  · rw [hend h hx₁, hx₂] at hx₁
    exact (Option.some.inj hx₁).symm
  · rw [hend h hx₂, hx₁] at hx₂
    exact Option.some.inj hx₂

/-- A call of the machine comes to an end, with nothing in progress and with the answer and the
memory that the resolver gives. -/
theorem Resolver.exists_ending (r : Resolver) (m : Member) : ∃ τ,
    r.schema.Steps r.recursive (.start ⟨r.memory, []⟩ m) τ ∧
      τ.ending? = some ((r.order m).1, ⟨(r.order m).2.memory, []⟩) := by
  rw [Resolver.order]
  split
  · rename_i e hfollow
    obtain ⟨memory, hsteps⟩ := Schema.steps_of_follow_error hfollow [] .empty
    exact ⟨_, hsteps, rfl⟩
  · rename_i memory hfollow
    refine ⟨_, Schema.steps_of_follow_ok hfollow [] .empty, ?_⟩
    rw [Expansion.foldl_gather_empty]
    rfl

end Rebac
