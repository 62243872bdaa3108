import Mathlib.Data.List.Induction
import Rebac.Proofs.Enumeration
import Rebac.Proofs.Traversal

/-!
# What a resolver keeps true of its state

A resolver holds finished permissions and permissions in progress.  Seen from outside nothing is in
progress, but a call enters permissions within permissions, fails in the midst of them, and under
recursion finishes permissions that rely on others in progress.

`Traversal.Consistent` is what every step of the machine preserves.  What is in progress is what the
calls under way have entered, each once, and none of it is finished.  Each caller stands where it
needs the permission that was entered, with the expansion of the steps it has passed.  As long as
there is no error, what is finished relies on nothing but what is finished or in progress: when a
permission leaves what is in progress it is finished itself.  An error leaves the calls without
finishing them, so then this fails, and the memory is emptied at the end.

What a finished permission is kept with is compared with its expression directly.  `Expr.rules` and
`Expr.references` translate it from left to right, with no steps and no lookups of permissions.
-/

namespace Rebac

/-! ## The translation of a permission -/

mutual

/-- The names that an expression of a type refers to, from left to right. -/
def Expr.references (t : ObjectType) : Expr → List Member
  | .name source => [⟨t.name, source⟩]
  | .arrow base target =>
      match t.relation? base with
      | none => []
      | some r => r.subjects.map fun u => ⟨u.type, target⟩
  | .union es => Expr.referencesAll t es
  | .intersection [e, f] => e.references t ++ f.references t
  | .intersection _ => []
  | .exclusion _ _ => []
termination_by structural e => e

/-- What a list of expressions refers to. -/
def Expr.referencesAll (t : ObjectType) : List Expr → List Member
  | [] => []
  | e :: es => e.references t ++ Expr.referencesAll t es
termination_by structural es => es

end

/-- The name that a step needs. -/
def Step.target? : Step → Option Member
  | .need m _ => some m
  | _ => none

theorem Expr.filterMap_target?_operandSteps (e : Expr) (t : ObjectType) (d : String)
    (steps : List Step) (h : steps.filterMap Step.target? = e.references t) :
    (e.operandSteps t d steps).filterMap Step.target? = e.references t := by
  cases e with
  | name source => rfl
  | arrow base target => exact h
  | union es => exact h
  | intersection es => exact h
  | exclusion e f => exact h

mutual

/-- The names that the steps of an expression need are its references. -/
theorem Expr.filterMap_target?_steps (t : ObjectType) :
    ∀ (e : Expr) (d : String), (e.steps t d).filterMap Step.target? = e.references t
  | .name _, _ => rfl
  | .arrow base target, d => by
      rw [Expr.steps, Expr.references]
      cases t.relation? base with
      | none => rfl
      | some r =>
          simp only
          induction r.subjects with
          | nil => rfl
          | cons u us ih => exact congrArg (List.cons _) ih
  | .union [], _ => rfl
  | .union (e :: es), d => by
      rw [Expr.steps, Expr.references, Expr.referencesAll, List.filterMap_append,
        Expr.filterMap_target?_steps t e d, Expr.filterMap_target?_stepsAll t es d]
  | .intersection [e, f], d => by
      have he := Expr.filterMap_target?_steps t e (operandName d 0)
      have hf := Expr.filterMap_target?_steps t f (operandName d 1)
      rw [Expr.steps, Expr.references, List.filterMap_append, List.filterMap_append,
        e.filterMap_target?_operandSteps t d _ he, f.filterMap_target?_operandSteps t d _ hf]
      exact List.append_nil _
  | .intersection [], _ => rfl
  | .intersection [_], _ => rfl
  | .intersection (_ :: _ :: _ :: _), _ => rfl
  | .exclusion _ _, _ => rfl
termination_by structural e => e

theorem Expr.filterMap_target?_stepsAll (t : ObjectType) :
    ∀ (es : List Expr) (d : String),
      (Expr.stepsAll t d es).filterMap Step.target? = Expr.referencesAll t es
  | [], _ => rfl
  | e :: es, d => by
      rw [Expr.stepsAll, Expr.referencesAll, List.filterMap_append,
        Expr.filterMap_target?_steps t e d, Expr.filterMap_target?_stepsAll t es d]
termination_by structural es => es

end

/-- Whether the member is a permission by the lookups of the schema. -/
def Schema.hasPermission (s : Schema) (m : Member) : Bool :=
  match s.find m with
  | .permission _ _ => true
  | _ => false

/-- The permissions that the expression of a permission refers to, in order and with repetitions. -/
def Schema.dependencies (s : Schema) (m : Member) : List Member :=
  match s.find m with
  | .permission t p => (p.expr.references t).filter s.hasPermission
  | _ => []

/-- The expansion of a permission by a plain translation of its expression. -/
def Schema.translation (s : Schema) (m : Member) : Expansion where
  unary := (s.ownRules m).filterMap Sum.getLeft?
  binary := (s.ownRules m).filterMap Sum.getRight?
  needs := s.dependencies m

theorem Step.permissions_eq_filter (s : Schema) (steps : List Step) :
    Step.permissions s steps = (steps.filterMap Step.target?).filter s.hasPermission := by
  induction steps with
  | nil => rfl
  | cons step steps ih =>
      cases step with
      | need m origin =>
          rw [Step.permissions] at ih ⊢
          cases hfind : s.find m <;>
            simp [Step.target?, Schema.hasPermission, hfind, ih]
      | copy r => exact ih
      | hop r => exact ih
      | meet r => exact ih
      | reject e => exact ih

/-- The steps of a permission leave its translation in the memory. -/
theorem Schema.ofSteps_ownSteps (s : Schema) (m : Member) :
    Expansion.ofSteps s (s.ownSteps m) = s.translation m := by
  have hneeds : Step.permissions s (s.ownSteps m) = s.dependencies m := by
    rw [Step.permissions_eq_filter, Schema.ownSteps, Schema.dependencies]
    cases s.find m with
    | permission t p => rw [Expr.filterMap_target?_steps]
    | _ => rfl
  rw [Expansion.ofSteps, s.unaryRules_ownSteps, s.binaryRules_ownSteps, hneeds, Schema.translation]

/-! ## Calls under way -/

/-- Some of the steps have been taken and passed, `out` is what they give, and `rest` are the
others. -/
def Schema.Halfway (s : Schema) (covered : Member → Prop) (steps : List Step) (out : Expansion)
    (rest : List Step) : Prop :=
  ∃ done, done ++ rest = steps ∧ out = .ofSteps s done ∧ ∀ step ∈ done, step.Passed s covered

/-- The calls under way: each frame stands where its caller needs the permission that was entered,
and the last one was entered for the name asked for.  Inside them the steps are taken. -/
inductive Schema.Entered (s : Schema) (root : Member) (covered : Member → Prop) :
    List Frame → List Step → Prop where
  | root : Entered s root covered [] [.need root root]
  | call {frame : Frame} {frames : List Frame} {steps : List Step} {origin : Member} :
      s.IsPermission frame.key → Entered s root covered frames steps →
        s.Halfway covered steps frame.out (.need frame.key origin :: frame.rest) →
          Entered s root covered (frame :: frames) (s.ownSteps frame.key)

section Calls

variable {s : Schema} {root : Member} {covered covered' : Member → Prop} {steps rest : List Step}
  {out : Expansion} {frames : List Frame}

theorem Schema.halfway_start (s : Schema) (covered : Member → Prop) (steps : List Step) :
    s.Halfway covered steps .empty steps :=
  ⟨[], rfl, rfl, by simp⟩

theorem Schema.Halfway.mono (h : s.Halfway covered steps out rest)
    (hsub : ∀ m, covered m → covered' m) : s.Halfway covered' steps out rest := by
  obtain ⟨done, hsteps, hout, hpassed⟩ := h
  exact ⟨done, hsteps, hout, fun step hstep => (hpassed step hstep).mono hsub⟩

/-- A step that is passed is done. -/
theorem Schema.Halfway.gather {step : Step} (h : s.Halfway covered steps out (step :: rest))
    (hstep : step.Passed s covered) : s.Halfway covered steps (out.gather s step) rest := by
  obtain ⟨done, hsteps, hout, hpassed⟩ := h
  refine ⟨done ++ [step], by simpa using hsteps, ?_, ?_⟩
  · rw [hout, Expansion.ofSteps_concat]
  · intro step' hmem
    rcases List.mem_append.mp hmem with hmem | hmem
    · exact hpassed step' hmem
    · rw [List.mem_singleton.mp hmem]
      exact hstep

/-- At the end all steps are passed. -/
theorem Schema.Halfway.all (h : s.Halfway covered steps out []) :
    out = .ofSteps s steps ∧ ∀ step ∈ steps, step.Passed s covered := by
  obtain ⟨done, hsteps, hout, hpassed⟩ := h
  rw [List.append_nil] at hsteps
  subst hsteps
  exact ⟨hout, hpassed⟩

theorem Schema.Entered.mono (h : s.Entered root covered frames steps)
    (hsub : ∀ m, covered m → covered' m) : s.Entered root covered' frames steps := by
  induction h with
  | root => exact .root
  | call hkey _ hcaller ih => exact .call hkey ih (hcaller.mono hsub)

end Calls

/-! ## States of the machine -/

/-- What is true of a state whatever it is about. -/
structure Traversal.Orderly (s : Schema) (τ : Traversal) : Prop where
  /-- In progress is what the calls under way have entered. -/
  entered : τ.inProgress = (τ.frames.map Frame.key).reverse
  distinct : τ.inProgress.Nodup
  permission : ∀ m ∈ τ.inProgress, s.IsPermission m
  /-- What is in progress is not finished. -/
  apart : ∀ m ∈ τ.inProgress, τ.memory.knows m = false

/-- What is true of a state reached from asking for a name.  While steps are taken the memory relies
on nothing but itself and what is in progress.  While an error is handed on this need not be so. -/
structure Traversal.Consistent (s : Schema) (root : Member) (τ : Traversal) : Prop extends
    τ.Orderly s where
  working : ∀ out rest, τ.phase = .working out rest →
    τ.memory.Settled s τ.inProgress ∧ ∃ steps,
      s.Entered root (τ.memory.Covers τ.inProgress) τ.frames steps ∧
        s.Halfway (τ.memory.Covers τ.inProgress) steps out rest

section Moves

variable {s : Schema} {recursive : Bool} {root : Member} {memory : Memory} {path : List Member}
  {frames : List Frame} {frame : Frame} {phase : Phase} {out : Expansion} {rest : List Step}

/-- Outside a call, its permission is off the path. -/
theorem Traversal.Orderly.outside
    (h : Traversal.Orderly s ⟨⟨memory, path⟩, frame :: frames, phase⟩) (phase' : Phase) :
    ∃ path', path = path' ++ [frame.key] ∧ frame.key ∉ path' ∧
      Traversal.Orderly s ⟨⟨memory, path'⟩, frames, phase'⟩ := by
  have hpath : path = (frames.map Frame.key).reverse ++ [frame.key] := by
    simpa using h.entered
  subst hpath
  have hdistinct := List.nodup_append.mp h.distinct
  refine ⟨_, rfl, fun hmem => hdistinct.2.2 _ hmem _ (List.mem_singleton_self _) rfl, ?_⟩
  exact ⟨rfl, hdistinct.1, fun m hm => h.permission m (List.mem_append_left _ hm),
    fun m hm => h.apart m (List.mem_append_left _ hm)⟩

/-- A permission that is neither finished nor in progress can be entered. -/
theorem Traversal.Orderly.enter (h : Traversal.Orderly s ⟨⟨memory, path⟩, frames, phase⟩)
    (frame : Frame) (phase' : Phase) (hkey : s.IsPermission frame.key)
    (hnew : memory.knows frame.key = false) (hpath : frame.key ∉ path) :
    Traversal.Orderly s ⟨⟨memory, path ++ [frame.key]⟩, frame :: frames, phase'⟩ where
  entered := by simpa using h.entered
  distinct := by
    rw [← List.concat_eq_append]
    exact h.distinct.concat hpath
  permission m hm := by
    rcases List.mem_append.mp hm with hm | hm
    · exact h.permission m hm
    · exact List.mem_singleton.mp hm ▸ hkey
  apart m hm := by
    rcases List.mem_append.mp hm with hm | hm
    · exact h.apart m hm
    · exact List.mem_singleton.mp hm ▸ hnew

/-- An error keeps the state orderly. -/
theorem Traversal.Orderly.fail {held : Holdings} (h : Traversal.Orderly s ⟨held, frames, phase⟩)
    (e : CompileError) : Traversal.Consistent s root ⟨held, frames, .failing e⟩ where
  entered := h.entered
  distinct := h.distinct
  permission := h.permission
  apart := h.apart
  working := by simp

/-- A step that is passed keeps the state consistent. -/
theorem Traversal.Consistent.gather {held : Holdings} {step : Step}
    (h : Traversal.Consistent s root ⟨held, frames, .working out (step :: rest)⟩)
    (hstep : step.Passed s (held.memory.Covers held.inProgress)) :
    Traversal.Consistent s root ⟨held, frames, .working (out.gather s step) rest⟩ where
  entered := h.entered
  distinct := h.distinct
  permission := h.permission
  apart := h.apart
  working := by
    obtain ⟨hsettled, steps, hentered, hhalfway⟩ := h.working out (step :: rest) rfl
    intro out' rest' hphase
    cases hphase
    exact ⟨hsettled, steps, hentered, hhalfway.gather hstep⟩

/-- Entering a needed permission keeps the state consistent. -/
theorem Traversal.Consistent.enter {target origin : Member} {t : ObjectType} {p : Permission}
    (h : Traversal.Consistent s root
      ⟨⟨memory, path⟩, frames, .working out (.need target origin :: rest)⟩)
    (hjudge : s.judge recursive path memory target origin = .enter t p) :
    Traversal.Consistent s root ⟨⟨memory, path ++ [target]⟩, ⟨target, out, rest⟩ :: frames,
      .working .empty (p.expr.steps t p.name)⟩ := by
  obtain ⟨hfind, hnew, hpath⟩ := Schema.of_judge_enter hjudge
  have horderly := h.toOrderly.enter ⟨target, out, rest⟩
    (.working .empty (p.expr.steps t p.name)) ⟨t, p, hfind⟩ hnew hpath
  refine ⟨horderly, fun out' rest' hphase => ?_⟩
  cases hphase
  obtain ⟨hsettled, steps, hentered, hhalfway⟩ := h.working _ _ rfl
  have hcovers : ∀ m, memory.Covers path m → memory.Covers (path ++ [target]) m :=
    fun m hm => hm.imp_right (List.mem_append_left _)
  refine ⟨hsettled.lengthen target, s.ownSteps target, ?_, ?_⟩
  · exact .call ⟨t, p, hfind⟩ (hentered.mono hcovers) (hhalfway.mono hcovers)
  · rw [Schema.ownSteps_of_find hfind]
    exact s.halfway_start _ _

/-- Finishing a permission keeps the state consistent.  What relied on its being in progress finds
it in the memory. -/
theorem Traversal.Consistent.finish
    (h : Traversal.Consistent s root ⟨⟨memory, path⟩, frame :: frames, .working out []⟩) :
    Traversal.Consistent s root ⟨⟨(frame.key, out) :: memory, path.dropLast⟩, frames,
      .working (frame.out.rely frame.key) frame.rest⟩ := by
  obtain ⟨hsettled, steps, hentered, hhalfway⟩ := h.working _ _ rfl
  obtain ⟨path', rfl, hkey, horderly⟩ :=
    h.toOrderly.outside (.working (frame.out.rely frame.key) frame.rest)
  rw [List.dropLast_concat]
  cases hentered with
  | call hperm hcallers hcaller =>
      obtain ⟨rfl, hpassed⟩ := hhalfway.all
      obtain ⟨t, p, hfind⟩ := hperm
      have hown := Schema.ownSteps_of_find hfind
      rw [hown] at hpassed ⊢
      have hcovers : ∀ m, memory.Covers (path' ++ [frame.key]) m → Memory.Covers
          ((frame.key, .ofSteps s (p.expr.steps t p.name)) :: memory) path' m :=
        fun m hm => hm.finish _
      refine ⟨⟨horderly.entered, horderly.distinct, horderly.permission, ?_⟩, ?_⟩
      · intro m hm
        have hne : m ≠ frame.key := fun hmk => hkey (hmk ▸ hm)
        exact (Memory.knows_cons_of_ne hne).trans (horderly.apart m hm)
      · intro out' rest' hphase
        cases hphase
        refine ⟨hsettled.finish hfind hpassed, _, hcallers.mono hcovers, ?_⟩
        rw [← Expansion.gather_need ⟨t, p, hfind⟩]
        exact (hcaller.mono hcovers).gather
          (.inr ⟨⟨t, p, hfind⟩, .inl (Memory.knows_cons.mpr (.inl rfl))⟩)

/-- Every step of the machine keeps its state consistent. -/
theorem Traversal.Consistent.step {τ τ' : Traversal} (h : τ.Consistent s root)
    (hstep : τ.step s recursive = some τ') : τ'.Consistent s root := by
  cases Traversal.move_of_step hstep with
  | gather hpassed => exact h.gather hpassed
  | fail e => exact h.toOrderly.fail e
  | enter hjudge => exact h.enter hjudge
  | finish => exact h.finish
  | @leave memory path frame frames e =>
      obtain ⟨path', rfl, _, horderly⟩ := h.toOrderly.outside (.failing e)
      rw [List.dropLast_concat]
      exact horderly.fail e

/-- A run of the machine keeps its state consistent. -/
theorem Schema.Steps.consistent {τ τ' : Traversal} (hsteps : s.Steps recursive τ τ')
    (h : τ.Consistent s root) : τ'.Consistent s root := by
  induction hsteps with
  | refl => exact h
  | tail _ hstep ih => exact ih.step hstep

end Moves

/-- With nothing in progress and a settled memory any name can be asked for. -/
theorem Traversal.consistent_start {s : Schema} {memory : Memory} (h : memory.Settled s [])
    (m : Member) : (Traversal.start ⟨memory, []⟩ m).Consistent s m where
  entered := rfl
  distinct := .nil
  permission := by simp [Traversal.start]
  apart := by simp [Traversal.start]
  working := by
    intro out rest hphase
    cases hphase
    exact ⟨h, _, .root, s.halfway_start _ _⟩

/-- What is held agrees with the schema. -/
structure Holdings.Coherent (s : Schema) (held : Holdings) : Prop where
  distinct : held.inProgress.Nodup
  permission : ∀ m ∈ held.inProgress, s.IsPermission m ∧ ¬ s.IsRelation m
  /-- What is in progress is not finished. -/
  apart : ∀ m ∈ held.inProgress, held.memory.knows m = false
  /-- What is finished is kept with its translation. -/
  translated : ∀ m x, held.memory.get? m = some x → x = s.translation m
  /-- What is finished relies on what is finished or in progress. -/
  covered : ∀ m x, held.memory.get? m = some x →
    ∀ n ∈ x.needs, held.memory.knows n = true ∨ n ∈ held.inProgress

/-- While steps are taken, what is held agrees with the schema. -/
theorem Traversal.Consistent.coherent {s : Schema} {root : Member} {τ : Traversal}
    (h : τ.Consistent s root) {out : Expansion} {rest : List Step}
    (hphase : τ.phase = .working out rest) : τ.Coherent s := by
  obtain ⟨hsettled, _⟩ := h.working out rest hphase
  refine ⟨h.distinct, ?_, h.apart, ?_, ?_⟩
  · intro m hm
    exact ⟨h.permission m hm, Schema.not_isRelation_of_isPermission (h.permission m hm)⟩
  · intro m x hx
    rw [(hsettled.expansion m x hx).2, s.ofSteps_ownSteps]
  · intro m x hx n hn
    have hknown : τ.memory.knows m = true := by rw [Memory.knows, hx, Option.isSome_some]
    rw [(hsettled.expansion m x hx).2] at hn
    obtain ⟨hperm, origin, hneed⟩ := Step.mem_permissions.mp hn
    exact (hsettled.passed m hknown _ hneed).of_need hperm

/-! ## Histories of calls -/

/-- A call from outside. -/
inductive Inquiry where
  | resolve (m : Member)
  | order (m : Member)
  deriving Repr, DecidableEq

/-- The name that is asked for. -/
def Inquiry.member : Inquiry → Member
  | .resolve m => m
  | .order m => m

/-- The resolver after a call. -/
def Resolver.serve (r : Resolver) : Inquiry → Resolver
  | .resolve m => (r.resolve m).2
  | .order m => (r.order m).2

/-- The resolver of a schema after a history of calls. -/
def Schema.resolverAfter (s : Schema) (recursive : Bool) (history : List Inquiry) : Resolver :=
  history.foldl Resolver.serve ⟨s, recursive, []⟩

/-- What the machine can hold after a history of calls, each of which starts with what the one
before it left. -/
inductive Schema.Session (s : Schema) (recursive : Bool) : List Inquiry → Holdings → Prop where
  | fresh : Session s recursive [] ⟨[], []⟩
  | call {history : List Inquiry} {held held' : Holdings} {q : Inquiry} {τ : Traversal}
      {answer : Except CompileError (List Member)} : Session s recursive history held →
        s.Steps recursive (.start held q.member) τ → τ.ending? = some (answer, held') →
          Session s recursive (history ++ [q]) held'

theorem Resolver.serve_eq (r : Resolver) (q : Inquiry) : r.serve q = (r.order q.member).2 := by
  cases q with
  | resolve m => exact r.resolve_snd m
  | order m => rfl

theorem Schema.resolverAfter_concat (s : Schema) (recursive : Bool) (history : List Inquiry)
    (q : Inquiry) : s.resolverAfter recursive (history ++ [q]) =
      ((s.resolverAfter recursive history).order q.member).2 := by
  rw [Schema.resolverAfter, List.foldl_concat, Resolver.serve_eq]
  rfl

/-- After every history the resolver serves its schema, and its memory is sound. -/
theorem Schema.resolverAfter_sound (s : Schema) (recursive : Bool) (history : List Inquiry) :
    (s.resolverAfter recursive history).Sound ∧
      (s.resolverAfter recursive history).schema = s ∧
        (s.resolverAfter recursive history).recursive = recursive := by
  induction history using List.reverseRecOn with
  | nil => exact ⟨Resolver.sound_fresh s recursive, rfl, rfl⟩
  | append_singleton history q ih =>
      obtain ⟨hsound, hschema, hrecursive⟩ := ih
      rw [Schema.resolverAfter_concat]
      exact ⟨hsound.order q.member, (Resolver.schema_order _ _).trans hschema,
        (Resolver.recursive_order _ _).trans hrecursive⟩

/-- A further call of the machine ends as that of the resolver. -/
theorem Schema.exists_ending_after (s : Schema) (recursive : Bool) (history : List Inquiry)
    (m : Member) : ∃ τ,
      s.Steps recursive (.start ⟨(s.resolverAfter recursive history).memory, []⟩ m) τ ∧
        τ.ending? = some (((s.resolverAfter recursive history).order m).1,
          ⟨((s.resolverAfter recursive history).order m).2.memory, []⟩) := by
  obtain ⟨_, hschema, hrecursive⟩ := s.resolverAfter_sound recursive history
  have hending := (s.resolverAfter recursive history).exists_ending m
  rwa [hschema, hrecursive] at hending

/-- After a history the machine holds what the resolver holds, and nothing is in progress. -/
theorem Schema.session_iff (s : Schema) (recursive : Bool) (history : List Inquiry)
    (held : Holdings) : s.Session recursive history held ↔
      held = ⟨(s.resolverAfter recursive history).memory, []⟩ := by
  constructor
  · intro h
    induction h with
    | fresh => rfl
    | @call history _ _ q _ _ _ hsteps hending ih =>
        subst ih
        obtain ⟨_, hsteps', hending'⟩ := s.exists_ending_after recursive history q.member
        have hsame := hsteps.ending_unique hsteps' hending hending'
        rw [Schema.resolverAfter_concat]
        exact (Prod.ext_iff.mp hsame).2
  · intro h
    subst h
    induction history using List.reverseRecOn with
    | nil => exact .fresh
    | append_singleton history q ih =>
        obtain ⟨_, hsteps, hending⟩ := s.exists_ending_after recursive history q.member
        rw [Schema.resolverAfter_concat]
        exact .call ih hsteps hending

/-- After every history of calls, failed ones included, a resolver has nothing in progress, and its
memory is closed under what is relied on.  A further call ends as well, and whenever steps are taken
in it, so wherever a name is needed, what is in progress are distinct permissions that are not
finished, and each finished permission is kept with the translation of its expression and relies on
nothing but what is finished or in progress. -/
theorem Schema.resolver_coherent (s : Schema) (recursive : Bool) (history : List Inquiry) :
    (∀ held, s.Session recursive history held ↔
      held = ⟨(s.resolverAfter recursive history).memory, []⟩) ∧
    (∀ m, ∀ n ∈ (s.resolverAfter recursive history).memory.needs m,
      (s.resolverAfter recursive history).memory.knows n = true) ∧
    ∀ m, (∃ τ, s.Steps recursive (.start ⟨(s.resolverAfter recursive history).memory, []⟩ m) τ ∧
        τ.ending? = some (((s.resolverAfter recursive history).order m).1,
          ⟨((s.resolverAfter recursive history).order m).2.memory, []⟩)) ∧
      ∀ τ, s.Steps recursive (.start ⟨(s.resolverAfter recursive history).memory, []⟩ m) τ →
        ∀ out rest, τ.phase = .working out rest → τ.Coherent s := by
  obtain ⟨hsound, hschema, _⟩ := s.resolverAfter_sound recursive history
  have hsettled : (s.resolverAfter recursive history).memory.Settled s [] := by
    have hsettled := hsound.settled
    rwa [hschema] at hsettled
  refine ⟨s.session_iff recursive history, fun m n hn => hsettled.knows_of_mem_needs hn,
    fun m => ⟨s.exists_ending_after recursive history m, ?_⟩⟩
  intro τ hsteps out rest hphase
  exact (hsteps.consistent (Traversal.consistent_start hsettled m)).coherent hphase

/-- A permission that refers to another one and to itself. -/
def loopingTask : Schema where
  types := [⟨"t", [⟨"r", [⟨"t", none⟩]⟩],
    [⟨"p", .union [.name "q", .name "p"]⟩, ⟨"q", .name "r"⟩]⟩]

/-- The permission `p` of `loopingTask` has finished `q` and comes to itself. -/
def loopingTaskAtItself : Traversal where
  memory := [(⟨"t", "q"⟩, ⟨[⟨"t", "r", "q"⟩], [], []⟩)]
  inProgress := [⟨"t", "p"⟩]
  frames := [⟨⟨"t", "p"⟩, .empty, []⟩]
  phase := .working ⟨[⟨"t", "q", "p"⟩], [], [⟨"t", "q"⟩]⟩
    [.need ⟨"t", "p"⟩ ⟨"t", "p"⟩, .copy ⟨"t", "p", "p"⟩]

theorem loopingTask_steps : loopingTask.Steps true
    (.start ⟨(loopingTask.resolverAfter true [.resolve ⟨"t", "x"⟩]).memory, []⟩ ⟨"t", "p"⟩)
      loopingTaskAtItself := by
  have hmemory : (loopingTask.resolverAfter true [.resolve ⟨"t", "x"⟩]).memory = [] := by cbv
  rw [hmemory]
  exact .head rfl (.head rfl (.head rfl (.head rfl (.head rfl (.head rfl .refl)))))

/-- After a failed call, `p` is asked for and comes to itself while it is in progress. -/
theorem loopingTask_coherent : loopingTask.Steps true
    (.start ⟨(loopingTask.resolverAfter true [.resolve ⟨"t", "x"⟩]).memory, []⟩ ⟨"t", "p"⟩)
      loopingTaskAtItself ∧ loopingTaskAtItself.Coherent loopingTask := by
  obtain ⟨_, _, hcalls⟩ := loopingTask.resolver_coherent true [.resolve ⟨"t", "x"⟩]
  exact ⟨loopingTask_steps, (hcalls ⟨"t", "p"⟩).2 _ loopingTask_steps _ _ rfl⟩

end Rebac
