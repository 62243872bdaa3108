import Mathlib.Algebra.Order.BigOperators.Group.Finset
import Mathlib.Data.List.Chain
import Rebac.Proofs.ResolverStates
import Rebac.Proofs.Walking

/-!
# Every call of a resolver comes to an end

The references of a schema may run in circles, and with recursion allowed such a schema is resolved
as any other.  What keeps a call from going round is that a permission is entered once.  While it is
worked on it is in progress, then it is finished, and neither is entered.  When an error is handed
to the callers nothing is entered at all.

So the steps of a call can be counted ahead (`Schema.workload`).  A permission takes the steps of
its expression, which is a finite tree, and one to finish it.  One more is taken for the name asked
for.  `budget` is what is left of this while calls are under way: the steps that the callers still
have to take, and the whole of each permission that was not entered yet.  Every step lowers it, also
in the walk that lists the permissions afterwards, where a permission takes a step for each one it
needs.

The calls under way have entered distinct permissions of the schema, so they are nested no deeper
than there are permissions (`Traversal.Orderly.nesting`, `Walk.Within.calls_length_le`).
-/

namespace Rebac

/-! ## Runs -/

section Runs

variable {α : Type} {next : α → Option α} {a : α} {states : List α}

/-- The states are those that a machine comes to one after the other. -/
def IsRun (next : α → Option α) (a : α) (states : List α) : Prop :=
  (a :: states).IsChain fun b c => next b = some c

/-- What every step keeps is true all along a run. -/
theorem IsRun.forall_mem {P : α → Prop} (h : IsRun next a states)
    (hstep : ∀ b c, P b → next b = some c → P c) (ha : P a) : ∀ b ∈ a :: states, P b :=
  h.induction P _ (fun b c hbc hb => hstep b c hb hbc) (fun _ => ha)

/-- A run is no longer than a measure that every step lowers. -/
theorem IsRun.length_le {P : α → Prop} (h : IsRun next a states) (μ : α → ℕ)
    (hstep : ∀ b c, P b → next b = some c → P c ∧ μ c < μ b) (ha : P a) :
    states.length ≤ μ a := by
  induction states generalizing a with
  | nil => exact Nat.zero_le _
  | cons b states ih =>
      obtain ⟨hnext, hrest⟩ := List.isChain_cons_cons.mp h
      obtain ⟨hb, hlower⟩ := hstep a b ha hnext
      have hlength := ih hrest hb
      rw [List.length_cons]
      omega

end Runs

/-- Distinct members of a finite set are no more than it has. -/
theorem length_le_card_of_nodup {l : List Member} {keys : Finset Member} (h : l.Nodup)
    (hkeys : ∀ m ∈ l, m ∈ keys) : l.length ≤ keys.card := by
  rw [← List.toFinset_card_of_nodup h]
  exact Finset.card_le_card fun m hm => hkeys m (List.mem_toFinset.mp hm)

/-! ## Budgets -/

/-- What is left to do: the steps at hand, for each call under way the steps of its caller and one
to end it, and the same for each permission that was not entered. -/
def budget (cost : Member → ℕ) (left : Finset Member) (callers : List ℕ) (rest : ℕ) : ℕ :=
  rest + (callers.map (· + 1)).sum + ∑ m ∈ left, (cost m + 1)

section Budget

variable (cost : Member → ℕ) (left : Finset Member) (callers : List ℕ) (rest : ℕ)

theorem budget_take : budget cost left callers rest < budget cost left callers (rest + 1) := by
  simp only [budget]
  omega

theorem budget_leave : budget cost left callers rest < budget cost left (rest :: callers) 0 := by
  simp only [budget, List.map_cons, List.sum_cons]
  omega

theorem budget_enter {m : Member} (h : m ∈ left) :
    budget cost (left.erase m) (rest :: callers) (cost m) < budget cost left callers (rest + 1) := by
  have hsum := Finset.add_sum_erase left (fun n => cost n + 1) h
  simp only [budget, List.map_cons, List.sum_cons]
  omega

theorem length_lt_budget : callers.length < budget cost left callers (rest + 1) := by
  have hcallers : (callers.map (· + 1)).length ≤ (callers.map (· + 1)).sum :=
    List.length_le_sum_of_one_le _ (by simp)
  rw [List.length_map] at hcallers
  simp only [budget]
  omega

end Budget

/-- The distinct pairs of a type and a permission it declares. -/
def Schema.permissionKeys (s : Schema) : Finset Member := s.permissionMembers.toFinset

/-- The steps of all permissions, and one to finish each of them. -/
def Schema.workload (s : Schema) : ℕ := ∑ m ∈ s.permissionKeys, ((s.ownSteps m).length + 1)

theorem Schema.IsPermission.mem_permissionKeys {s : Schema} {m : Member} (h : s.IsPermission m) :
    m ∈ s.permissionKeys := by
  obtain ⟨t, p, hfind⟩ := h
  exact List.mem_toFinset.mpr (Schema.mem_permissionMembers hfind)

/-! ## The search -/

/-- The permissions that are neither finished nor in progress. -/
def Holdings.untouched (s : Schema) (held : Holdings) : Finset Member :=
  s.permissionKeys.filter fun m => held.memory.knows m = false ∧ m ∉ held.inProgress

section Untouched

variable (s : Schema) (memory : Memory) (path : List Member) (m : Member)

theorem Holdings.untouched_enter :
    Holdings.untouched s ⟨memory, path ++ [m]⟩ = (Holdings.untouched s ⟨memory, path⟩).erase m := by
  ext n
  simp only [Holdings.untouched, Finset.mem_filter, Finset.mem_erase, List.mem_append,
    List.mem_singleton]
  tauto

theorem Holdings.untouched_finish (x : Expansion) :
    Holdings.untouched s ⟨(m, x) :: memory, path⟩ =
      Holdings.untouched s ⟨memory, path ++ [m]⟩ := by
  ext n
  simp only [Holdings.untouched, Finset.mem_filter, List.mem_append, List.mem_singleton,
    ← Bool.not_eq_true, Memory.knows_cons]
  tauto

end Untouched

/-- What is left to do in a call.  An error only has to be handed to the callers. -/
def Traversal.remaining (s : Schema) (τ : Traversal) : ℕ :=
  match τ.phase with
  | .working _ rest =>
      budget (fun m => (s.ownSteps m).length) (τ.untouched s)
        (τ.frames.map fun frame => frame.rest.length) rest.length
  | .failing _ => τ.frames.length

section Search

variable {s : Schema} {recursive : Bool} {root : Member} {τ τ' : Traversal}

/-- Every step of the search lowers what is left to do. -/
theorem Traversal.Orderly.remaining_step (h : τ.Orderly s)
    (hstep : τ.step s recursive = some τ') : τ'.remaining s < τ.remaining s := by
  cases Traversal.move_of_step hstep with
  | gather _ => exact budget_take _ _ _ _
  | @fail held frames out step rest e =>
      have hcalls := length_lt_budget (fun m => (s.ownSteps m).length) (held.untouched s)
        (frames.map fun frame => frame.rest.length) rest.length
      rwa [List.length_map] at hcalls
  | @enter memory path frames out target origin rest t p hjudge =>
      obtain ⟨hfind, hnew, hpath⟩ := Schema.of_judge_enter hjudge
      have hmem : target ∈ Holdings.untouched s ⟨memory, path⟩ :=
        Finset.mem_filter.mpr ⟨Schema.IsPermission.mem_permissionKeys ⟨t, p, hfind⟩, hnew, hpath⟩
      have henter := budget_enter (fun m => (s.ownSteps m).length) _
        (frames.map fun frame => frame.rest.length) rest.length hmem
      rwa [← Holdings.untouched_enter, Schema.ownSteps_of_find hfind] at henter
  | @finish memory path frame frames out =>
      obtain ⟨path', rfl, _, _⟩ := h.outside (.working out [])
      rw [List.dropLast_concat]
      show budget _ (Holdings.untouched s ⟨(frame.key, out) :: memory, path'⟩) _ _ <
        budget _ (Holdings.untouched s ⟨memory, path' ++ [frame.key]⟩) _ _
      rw [Holdings.untouched_finish]
      exact budget_leave _ _ _ _
  | leave => exact Nat.lt_succ_self _

/-- The calls under way are as many as the permissions in progress.  These are distinct, so there
are no more than the schema has. -/
theorem Traversal.Orderly.nesting (h : τ.Orderly s) :
    τ.frames.length = τ.inProgress.length ∧ τ.inProgress.length ≤ s.permissionKeys.card := by
  constructor
  · rw [h.entered, List.length_reverse, List.length_map]
  · exact length_le_card_of_nodup h.distinct fun m hm => (h.permission m hm).mem_permissionKeys

theorem Traversal.remaining_start_le (s : Schema) (memory : Memory) (m : Member) :
    (Traversal.start ⟨memory, []⟩ m).remaining s ≤ s.workload + 1 := by
  have hsub : Holdings.untouched s ⟨memory, []⟩ ⊆ s.permissionKeys := Finset.filter_subset _ _
  have hsum := Finset.sum_le_sum_of_subset (f := fun m => (s.ownSteps m).length + 1) hsub
  show 1 + 0 + ∑ n ∈ Holdings.untouched s ⟨memory, []⟩, ((s.ownSteps n).length + 1) ≤ _
  rw [Schema.workload]
  omega

/-! ## Entering once -/

/-- The permission that the next step enters, and so whose expression it expands. -/
def Traversal.expanding? (s : Schema) (recursive : Bool) (τ : Traversal) : Option Member :=
  match τ.phase with
  | .working _ (.need target origin :: _) =>
      match s.judge recursive τ.inProgress τ.memory target origin with
      | .enter _ _ => some target
      | _ => none
  | _ => none

/-- The machine is past a permission when it will not enter it: it is finished or in progress, or
an error is handed on. -/
def Traversal.Past (m : Member) (τ : Traversal) : Prop :=
  ∀ out rest, τ.phase = .working out rest → τ.memory.Covers τ.inProgress m

variable {m : Member}

theorem Traversal.of_expanding? (h : τ.expanding? s recursive = some m) :
    ∃ out origin rest t p, τ.phase = .working out (.need m origin :: rest) ∧
      s.judge recursive τ.inProgress τ.memory m origin = .enter t p := by
  rw [Traversal.expanding?] at h
  split at h
  · rename_i out target origin rest hphase
    split at h
    · rename_i t p hjudge
      cases h
      exact ⟨out, origin, rest, t, p, hphase, hjudge⟩
    · cases h
  · cases h

/-- A permission that the machine is past is not expanded. -/
theorem Traversal.Past.expanding?_ne (h : τ.Past m) : τ.expanding? s recursive ≠ some m := by
  intro hexpanding
  obtain ⟨out, origin, rest, t, p, hphase, hjudge⟩ := Traversal.of_expanding? hexpanding
  obtain ⟨_, hnew, hpath⟩ := Schema.of_judge_enter hjudge
  rcases h _ _ hphase with hknown | hmem
  · rw [hnew] at hknown
    cases hknown
  · exact hpath hmem

/-- When a permission is expanded the machine gets past it. -/
theorem Traversal.past_of_expanding? (h : τ.expanding? s recursive = some m)
    (hstep : τ.step s recursive = some τ') : τ'.Past m := by
  obtain ⟨out, origin, rest, t, p, hphase, hjudge⟩ := Traversal.of_expanding? h
  obtain ⟨⟨memory, path⟩, frames, phase⟩ := τ
  simp only at hphase hjudge
  subst hphase
  simp only [Traversal.step, hjudge, Option.some.injEq] at hstep
  subst hstep
  exact fun _ _ _ => .inr (List.mem_append_right _ (List.mem_singleton_self m))

/-- The machine stays past a permission.  While it is worked on it is in progress, and then it is
finished. -/
theorem Traversal.Past.step (h : τ.Past m) (horderly : τ.Orderly s)
    (hstep : τ.step s recursive = some τ') : τ'.Past m := by
  intro out' rest' hphase
  cases Traversal.move_of_step hstep with
  | gather _ => exact h _ _ rfl
  | fail e => cases hphase
  | enter _ => exact (h _ _ rfl).imp_right (List.mem_append_left _)
  | @finish memory path frame frames out =>
      obtain ⟨path', rfl, _, _⟩ := horderly.outside (.working out [])
      rw [List.dropLast_concat]
      exact Memory.Covers.finish (h _ _ rfl) _
  | leave => cases hphase

/-- In a run no permission is expanded twice. -/
theorem Traversal.Consistent.nodup_expanding (h : τ.Consistent s root) {states : List Traversal}
    (hrun : IsRun (Traversal.step s recursive) τ states) :
    ((τ :: states).filterMap (Traversal.expanding? s recursive)).Nodup := by
  induction states generalizing τ with
  | nil =>
      rw [List.filterMap_cons]
      split <;> simp
  | cons τ' states ih =>
      obtain ⟨hstep, hrest⟩ := List.isChain_cons_cons.mp hrun
      have hlater := ih (h.step hstep) hrest
      rw [List.filterMap_cons]
      split
      · exact hlater
      · rename_i m hm
        -- From the next state on the machine is past the permission.
        have hpast : ∀ σ ∈ τ' :: states, σ.Consistent s root ∧ σ.Past m :=
          IsRun.forall_mem hrest
            (fun σ σ' hσ hnext => ⟨hσ.1.step hnext, hσ.2.step hσ.1.toOrderly hnext⟩)
            ⟨h.step hstep, Traversal.past_of_expanding? hm hstep⟩
        refine List.nodup_cons.mpr ⟨fun hmem => ?_, hlater⟩
        obtain ⟨σ, hσ, hagain⟩ := List.mem_filterMap.mp hmem
        exact (hpast σ hσ).2.expanding?_ne hagain

end Search

/-! ## The walk -/

/-- What is true of every state of a walk that stays among the keys. -/
structure Walk.Within (keys : Finset Member) (w : Walk) : Prop where
  distinct : w.visited.Nodup
  visited : ∀ m ∈ w.visited, m ∈ keys
  todo : ∀ m ∈ w.todo, m ∈ keys
  callers : ∀ call ∈ w.calls, ∀ m ∈ call.rest, m ∈ keys
  /-- What was come to is being listed or listed. -/
  count : w.calls.length + w.order.length = w.visited.length

/-- What is left to do in a walk. -/
def Walk.remaining (memory : Memory) (keys : Finset Member) (w : Walk) : ℕ :=
  budget (fun m => (memory.needs m).length) (keys.filter (· ∉ w.visited))
    (w.calls.map fun call => call.rest.length) w.todo.length

section Listing

variable {memory : Memory} {keys : Finset Member} {w w' : Walk} {visited order rest : List Member}
  {calls : List Walk.Call} {m : Member}

theorem filter_unvisited_concat (keys : Finset Member) (visited : List Member) (m : Member) :
    keys.filter (· ∉ visited ++ [m]) = (keys.filter (· ∉ visited)).erase m := by
  ext n
  simp only [Finset.mem_filter, Finset.mem_erase, List.mem_append, List.mem_singleton]
  tauto

/-- A permission that was not come to can be gone into. -/
theorem Walk.Within.enter (h : Walk.Within keys ⟨visited, order, calls, m :: rest⟩)
    (hneeds : ∀ n ∈ memory.needs m, n ∈ keys) (hm : m ∉ visited) :
    Walk.Within keys ⟨visited ++ [m], order, ⟨m, rest⟩ :: calls, memory.needs m⟩ where
  distinct := by
    rw [← List.concat_eq_append]
    exact h.distinct.concat hm
  visited n hn := by
    rcases List.mem_append.mp hn with hn | hn
    · exact h.visited n hn
    · exact List.mem_singleton.mp hn ▸ h.todo m List.mem_cons_self
  todo := hneeds
  callers := List.forall_mem_cons.mpr
    ⟨fun n hn => h.todo n (List.mem_cons_of_mem m hn), h.callers⟩
  count := by
    have hcount := h.count
    simp only [List.length_cons, List.length_append, List.length_nil] at hcount ⊢
    omega

/-- A permission whose needs were gone through is listed. -/
theorem Walk.Within.leave {call : Walk.Call}
    (h : Walk.Within keys ⟨visited, order, call :: calls, []⟩) :
    Walk.Within keys ⟨visited, order ++ [call.key], calls, call.rest⟩ where
  distinct := h.distinct
  visited := h.visited
  todo := h.callers call List.mem_cons_self
  callers c hc := h.callers c (List.mem_cons_of_mem call hc)
  count := by
    have hcount := h.count
    simp only [List.length_cons, List.length_append, List.length_nil] at hcount ⊢
    omega

/-- Every step of the walk stays among the keys and lowers what is left to do. -/
theorem Walk.Within.step (h : w.Within keys)
    (hneeds : ∀ m, ∀ n ∈ memory.needs m, n ∈ keys) (hstep : w.step memory = some w') :
    w'.Within keys ∧ w'.remaining memory keys < w.remaining memory keys := by
  fun_cases Walk.step memory w with
  | case1 visited order calls m rest hm =>
      rw [Walk.step_skip hm] at hstep
      cases hstep
      refine ⟨⟨h.distinct, h.visited, ?_, h.callers, h.count⟩, budget_take _ _ _ _⟩
      exact fun n hn => h.todo n (List.mem_cons_of_mem m hn)
  | case2 visited order calls m rest hm =>
      rw [Walk.step_enter hm] at hstep
      cases hstep
      have hleft : m ∈ keys.filter (· ∉ visited) :=
        Finset.mem_filter.mpr ⟨h.todo m List.mem_cons_self, hm⟩
      refine ⟨h.enter (hneeds m) hm, ?_⟩
      show budget _ (keys.filter (· ∉ visited ++ [m])) _ _ < _
      rw [filter_unvisited_concat]
      exact budget_enter _ _ _ _ hleft
  | case3 visited order call calls =>
      cases hstep
      exact ⟨h.leave, budget_leave _ _ _ _⟩
  | case4 visited order => cases hstep

/-- The calls under way in a walk are no more than the keys. -/
theorem Walk.Within.calls_length_le (h : w.Within keys) : w.calls.length ≤ keys.card := by
  have hvisited := length_le_card_of_nodup h.distinct h.visited
  have hcount := h.count
  omega

theorem Walk.within_start {roots : List Member} (h : ∀ m ∈ roots, m ∈ keys) :
    (Walk.start roots).Within keys :=
  ⟨.nil, by simp [Walk.start], h, by simp [Walk.start], rfl⟩

end Listing

/-- A finished permission has no more needs than steps. -/
theorem Memory.Settled.needs_length_le {s : Schema} {path : List Member} {memory : Memory}
    (h : memory.Settled s path) (m : Member) :
    (memory.needs m).length ≤ (s.ownSteps m).length := by
  rw [Memory.needs]
  split
  · rename_i x hx
    rw [(h.expansion m x hx).2]
    exact List.length_filterMap_le _ _
  · exact Nat.zero_le _

/-! ## Calls -/

section Calls

variable {s : Schema} {recursive : Bool} {memory : Memory}

/-- From a settled memory the search is bounded, and enters each permission once. -/
theorem Memory.Settled.search_bounded (h : memory.Settled s []) {m : Member}
    {states : List Traversal}
    (hrun : IsRun (Traversal.step s recursive) (.start ⟨memory, []⟩ m) states) :
    states.length ≤ s.workload + 1 ∧
      (∀ τ ∈ Traversal.start ⟨memory, []⟩ m :: states,
        τ.frames.length = τ.inProgress.length ∧
          τ.inProgress.length ≤ s.permissionKeys.card) ∧
      ((Traversal.start ⟨memory, []⟩ m :: states).filterMap
        (Traversal.expanding? s recursive)).Nodup := by
  have hstart := Traversal.consistent_start h m
  have hconsistent : ∀ τ ∈ Traversal.start ⟨memory, []⟩ m :: states, τ.Consistent s m :=
    hrun.forall_mem (fun _ _ hτ hstep => hτ.step hstep) hstart
  have hlength : states.length ≤ (Traversal.start ⟨memory, []⟩ m).remaining s :=
    hrun.length_le _ (fun _ _ hτ hstep => ⟨hτ.step hstep, hτ.toOrderly.remaining_step hstep⟩) hstart
  exact ⟨hlength.trans (Traversal.remaining_start_le s memory m),
    fun τ hτ => (hconsistent τ hτ).toOrderly.nesting, hstart.nodup_expanding hrun⟩

/-- A settled memory needs permissions only. -/
theorem Memory.Settled.needs_mem_permissionKeys (h : memory.Settled s []) (m : Member) :
    ∀ n ∈ memory.needs m, n ∈ s.permissionKeys :=
  fun _ hn => (h.isPermission (h.knows_of_mem_needs hn)).mem_permissionKeys

/-- The walk through a settled memory is bounded. -/
theorem Memory.Settled.walk_bounded (h : memory.Settled s []) {roots : List Member}
    (hroots : ∀ m ∈ roots, s.IsPermission m) {states : List Walk}
    (hrun : IsRun (Walk.step memory) (.start roots) states) :
    states.length ≤ s.workload + roots.length ∧
      ∀ w ∈ Walk.start roots :: states, w.calls.length ≤ s.permissionKeys.card := by
  have hstart : (Walk.start roots).Within s.permissionKeys :=
    Walk.within_start fun m hm => (hroots m hm).mem_permissionKeys
  have hwithin : ∀ w ∈ Walk.start roots :: states, w.Within s.permissionKeys :=
    hrun.forall_mem (fun _ _ hw hstep => (hw.step h.needs_mem_permissionKeys hstep).1) hstart
  have hlength : states.length ≤ (Walk.start roots).remaining memory s.permissionKeys :=
    hrun.length_le _ (fun _ _ hw hstep => hw.step h.needs_mem_permissionKeys hstep) hstart
  refine ⟨hlength.trans ?_, fun w hw => (hwithin w hw).calls_length_le⟩
  have hcost : ∑ m ∈ s.permissionKeys.filter (· ∉ ([] : List Member)),
      ((memory.needs m).length + 1) ≤ s.workload := by
    rw [Finset.filter_true_of_mem (by simp)]
    exact Finset.sum_le_sum fun m _ => Nat.succ_le_succ (h.needs_length_le m)
  show roots.length + 0 + ∑ m ∈ s.permissionKeys.filter (· ∉ ([] : List Member)),
    ((memory.needs m).length + 1) ≤ _
  omega

end Calls

/-- A call that succeeds walks through the memory it leaves. -/
theorem Resolver.order_eq_walk {r : Resolver} {m : Member} {order : List Member}
    (h : (r.order m).1 = .ok order) :
    order = (r.order m).2.memory.walk [] [] (Step.permissions r.schema [.need m m]) := by
  rw [Resolver.order] at h ⊢
  split at h
  · cases h
  · cases h
    rfl

/-- Every call of a resolver comes to an end, after any history of calls and whatever the schema
refers to.  The search ends with the answer of the resolver, and no run of it has more steps than
its permissions have together with one for each of them and one for the call.  Never more
permissions are in progress than the schema has, and none is expanded twice.  After a search that
succeeds the walk ends with the order that the resolver gives, under the same bounds. -/
theorem Schema.call_terminates (s : Schema) (recursive : Bool) (history : List Inquiry)
    (m : Member) :
    let r := s.resolverAfter recursive history
    let start := Traversal.start ⟨r.memory, []⟩ m
    let roots := Step.permissions s [.need m m]
    (∃ τ, s.Steps recursive start τ ∧
      τ.ending? = some ((r.order m).1, ⟨(r.order m).2.memory, []⟩)) ∧
    (∀ states, IsRun (Traversal.step s recursive) start states →
      states.length ≤ s.workload + 1 ∧
      (∀ τ ∈ start :: states, τ.frames.length = τ.inProgress.length ∧
        τ.inProgress.length ≤ s.permissionKeys.card) ∧
      ((start :: states).filterMap (Traversal.expanding? s recursive)).Nodup) ∧
    ∀ order, (r.order m).1 = .ok order →
      (∃ visited, (r.order m).2.memory.Walks (.start roots) ⟨visited, order, [], []⟩) ∧
      ∀ states, IsRun (Walk.step (r.order m).2.memory) (.start roots) states →
        states.length ≤ s.workload + 1 ∧
        ∀ w ∈ Walk.start roots :: states, w.calls.length ≤ s.permissionKeys.card := by
  intro r start roots
  obtain ⟨hsound, hschema, _⟩ := s.resolverAfter_sound recursive history
  have hbefore : r.memory.Settled s [] := hschema ▸ hsound.settled
  have hafter : (r.order m).2.memory.Settled s [] := by
    have hsettled := (hsound.order m).settled
    rwa [Resolver.schema_order, hschema] at hsettled
  refine ⟨s.exists_ending_after recursive history m, fun states => hbefore.search_bounded, ?_⟩
  intro order horder
  have hroots : ∀ n ∈ roots, s.IsPermission n := fun n hn => (Step.mem_permissions.mp hn).1
  have hone : roots.length ≤ 1 := List.length_filterMap_le _ _
  constructor
  · have hwalk := Resolver.order_eq_walk horder
    rw [hschema] at hwalk
    rw [hwalk]
    exact (r.order m).2.memory.exists_walks_start roots
  · intro states hrun
    obtain ⟨hlength, hnesting⟩ := hafter.walk_bounded hroots hrun
    exact ⟨hlength.trans (Nat.add_le_add_left hone _), hnesting⟩

/-- Two permissions of different types that refer to each other. -/
def crossedTeams : Schema where
  types := [⟨"t", [⟨"r", [⟨"u", none⟩]⟩], [⟨"p", .arrow "r" "q"⟩]⟩,
    ⟨"u", [⟨"r", [⟨"t", none⟩]⟩], [⟨"q", .arrow "r" "p"⟩]⟩]

/-- The search for `p` in `crossedTeams`, from its entering to its end. -/
def crossedTeamsRun : List Traversal :=
  let p : Member := ⟨"t", "p"⟩
  let q : Member := ⟨"u", "q"⟩
  let ofP : BinaryRule := ⟨"u", "q", "t", "r", "p"⟩
  let ofQ : BinaryRule := ⟨"t", "p", "u", "r", "q"⟩
  let inP : Frame := ⟨p, .empty, []⟩
  let inQ : Frame := ⟨q, .empty, [.hop ofP]⟩
  [⟨⟨[], [p]⟩, [inP], .working .empty [.need q p, .hop ofP]⟩,
    ⟨⟨[], [p, q]⟩, [inQ, inP], .working .empty [.need p q, .hop ofQ]⟩,
    ⟨⟨[], [p, q]⟩, [inQ, inP], .working ⟨[], [], [p]⟩ [.hop ofQ]⟩,
    ⟨⟨[], [p, q]⟩, [inQ, inP], .working ⟨[], [ofQ], [p]⟩ []⟩,
    ⟨⟨[(q, ⟨[], [ofQ], [p]⟩)], [p]⟩, [inP], .working ⟨[], [], [q]⟩ [.hop ofP]⟩,
    ⟨⟨[(q, ⟨[], [ofQ], [p]⟩)], [p]⟩, [inP], .working ⟨[], [ofP], [q]⟩ []⟩,
    ⟨⟨[(p, ⟨[], [ofP], [q]⟩), (q, ⟨[], [ofQ], [p]⟩)], []⟩, [], .working ⟨[], [], [p]⟩ []⟩]

theorem crossedTeams_isRun : IsRun (Traversal.step crossedTeams true)
    (.start ⟨[], []⟩ ⟨"t", "p"⟩) crossedTeamsRun :=
  .cons_cons rfl (.cons_cons rfl (.cons_cons rfl (.cons_cons rfl (.cons_cons rfl
    (.cons_cons rfl (.cons_cons rfl (.singleton _)))))))

theorem crossedTeams_order : ((crossedTeams.resolverAfter true []).order ⟨"t", "p"⟩).1 =
    .ok [⟨"u", "q"⟩, ⟨"t", "p"⟩] := by
  cbv

/-- The search for `p` enters both permissions before either is finished, and comes back to the
first one.  It takes every step that it may, and has as much in progress as it may.  The walk then
lists both. -/
theorem crossedTeams_terminates :
    let start := Traversal.start ⟨[], []⟩ ⟨"t", "p"⟩
    let memory := ((crossedTeams.resolverAfter true []).order ⟨"t", "p"⟩).2.memory
    (IsRun (Traversal.step crossedTeams true) start crossedTeamsRun ∧
      crossedTeams.workload + 1 = crossedTeamsRun.length ∧ crossedTeams.permissionKeys.card = 2) ∧
    crossedTeamsRun.length ≤ crossedTeams.workload + 1 ∧
    (∀ τ ∈ start :: crossedTeamsRun, τ.frames.length = τ.inProgress.length ∧
      τ.inProgress.length ≤ crossedTeams.permissionKeys.card) ∧
    ((start :: crossedTeamsRun).filterMap (Traversal.expanding? crossedTeams true)).Nodup ∧
    ∃ visited, memory.Walks (.start (Step.permissions crossedTeams [.need ⟨"t", "p"⟩ ⟨"t", "p"⟩]))
      ⟨visited, [⟨"u", "q"⟩, ⟨"t", "p"⟩], [], []⟩ := by
  intro start memory
  obtain ⟨_, hsearch, hwalk⟩ := crossedTeams.call_terminates true [] ⟨"t", "p"⟩
  obtain ⟨hlength, hnesting, honce⟩ := hsearch _ crossedTeams_isRun
  exact ⟨⟨crossedTeams_isRun, by decide, by decide⟩, hlength, hnesting, honce,
    (hwalk _ crossedTeams_order).1⟩

end Rebac
