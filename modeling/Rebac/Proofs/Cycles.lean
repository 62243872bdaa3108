import Mathlib.Data.List.Chain
import Rebac.Proofs.Failures

/-!
# Reported cycles

A cycle is cut out of the path: from the permission that is needed again to the end, and then
that permission once more.  It is a cycle of the schema because of what the path is.  Every
permission on it refers to the next one, none stands on it twice, and the steps being followed are
those of the last one (`Schema.OpenPath`).  Entering a permission keeps this true, so it holds at
the end of every trail.

Neither the memory nor earlier calls matter here, since a call fails where the search without a
memory does.
-/

namespace Rebac

variable {s : Schema} {recursive : Bool}

/-- The members lead from a permission back to it, each by a direct reference to the next, and
before they are back they come by no permission twice. -/
structure Schema.IsCycle (s : Schema) (m : Member) (path : List Member) : Prop where
  length : 2 ≤ path.length
  first : path.head? = some m
  last : path.getLast? = some m
  distinct : path.dropLast.Nodup
  refers : path.IsChain s.Refers

/-! ## The path -/

/-- The path is a chain of references without repetitions, and the steps are those of its last
permission. -/
structure Schema.OpenPath (s : Schema) (path : List Member) (steps : List Step) : Prop where
  distinct : path.Nodup
  refers : path.IsChain s.Refers
  own : ∀ m ∈ path.getLast?, steps ⊆ s.ownSteps m

/-- At the start nothing is entered. -/
theorem Schema.openPath_nil (s : Schema) (steps : List Step) : s.OpenPath [] steps where
  distinct := .nil
  refers := .nil
  own := by simp

/-- What the last permission on the path needs, it refers to. -/
theorem Schema.OpenPath.refers_need {path : List Member} {steps : List Step} {n origin : Member}
    (h : s.OpenPath path steps) (hneed : .need n origin ∈ steps) (hn : s.IsPermission n) :
    ∀ m ∈ path.getLast?, s.Refers m n := by
  intro m hm
  exact Schema.refers_of_mem_needs (Schema.mem_needs.mpr ⟨hn, origin, h.own m hm hneed⟩)

/-- Entering a needed permission keeps the path open. -/
theorem Schema.OpenPath.enter {path : List Member} {steps : List Step} {m origin : Member}
    (h : s.OpenPath path steps) (hneed : .need m origin ∈ steps) (hm : s.IsPermission m)
    (hpath : m ∉ path) : s.OpenPath (path ++ [m]) (s.ownSteps m) where
  distinct := by
    rw [← List.concat_eq_append]
    exact h.distinct.concat hpath
  refers := h.refers.append (.singleton m) (by simpa using h.refers_need hneed hm)
  own := by simp

/-- A trail leads from an open path to an open path. -/
theorem Schema.OpenPath.trail {path path' : List Member} {steps : List Step} {step : Step}
    (h : s.OpenPath path steps) (htrail : s.Trail path steps path' step) :
    s.OpenPath path' [step] := by
  induction htrail with
  | here hstep =>
      refine ⟨h.distinct, h.refers, ?_⟩
      intro m hm
      exact List.cons_subset.mpr ⟨h.own m hm hstep, List.nil_subset _⟩
  | enter hneed hm hpath _ ih => exact ih (h.enter hneed hm hpath)

/-! ## Cutting the cycle out -/

theorem exists_dropWhile_ne {α : Type} [DecidableEq α] {a : α} {l : List α} (h : a ∈ l) :
    ∃ rest, l.dropWhile (· ≠ a) = a :: rest := by
  induction l with
  | nil => cases h
  | cons b l ih =>
      by_cases hb : b = a
      · exact ⟨l, by simp [hb]⟩
      · obtain ⟨rest, hrest⟩ := ih ((List.mem_cons.mp h).resolve_left (Ne.symm hb))
        exact ⟨rest, by simpa [hb] using hrest⟩

/-- A permission on the path that is needed again closes a cycle. -/
theorem Schema.OpenPath.isCycle {path : List Member} {target origin : Member}
    (h : s.OpenPath path [.need target origin]) (htarget : s.IsPermission target)
    (hmem : target ∈ path) : s.IsCycle target (cycleFrom path target) := by
  obtain ⟨rest, hrest⟩ := exists_dropWhile_ne hmem
  have hsuffix : target :: rest <:+ path := hrest ▸ List.dropWhile_suffix _
  have hcut : cycleFrom path target = target :: rest ++ [target] := by rw [cycleFrom, hrest]
  have hlast : path.getLast? = (target :: rest).getLast? := by
    obtain ⟨front, rfl⟩ := hsuffix
    simp [List.getLast?_cons]
  rw [hcut]
  refine ⟨by simp, rfl, List.getLast?_concat, ?_, ?_⟩
  · rw [List.dropLast_concat]
    exact h.distinct.sublist hsuffix.sublist
  · refine (h.refers.suffix hsuffix).append (.singleton target) ?_
    rw [← hlast]
    simpa using h.refers_need (List.mem_singleton_self _) htarget

/-- The search reports cycles of the schema. -/
theorem Schema.isCycle_of_firstError {n m : Member} {path : List Member}
    (h : s.firstError recursive [] [.need n n] = some (.cycle m path)) : s.IsCycle m path := by
  obtain ⟨path', step, htrail, hfails⟩ := Schema.trail_of_firstError h
  have hopen := (s.openPath_nil _).trail htrail
  generalize he : CompileError.cycle m path = e at hfails
  cases hfails with
  | noType => cases he
  | noName => cases he
  | cycle _ htarget hmem =>
      cases he
      exact hopen.isCycle htarget hmem
  | reject =>
      -- No step of a permission is rejected for a cycle.
      subst he
      rcases htrail.mem_steps with hstep | ⟨k, hstep⟩
      · simp at hstep
      · exact absurd rfl (Schema.kind_of_reject hstep)

/-- A cycle that is reported, be it by compiling or by a call to a resolver after any history of
calls, is a cycle of the schema, and the message shows it member by member. -/
theorem Schema.reported_cycle_isCycle {m : Member} {path : List Member}
    (h : s.compile recursive = .error (.cycle m path) ∨ ∃ history n,
      ((Resolver.after ⟨s, recursive, []⟩ history).resolve n).1 = .error (.cycle m path)) :
    s.IsCycle m path ∧ (CompileError.cycle m path).message =
      "cyclic permission reference: " ++
        " -> ".intercalate (path.map fun k => k.type ++ "#" ++ k.name) := by
  refine ⟨?_, rfl⟩
  rcases h with h | ⟨history, n, h⟩
  · rcases Schema.firstError_of_compile h with hreserved | ⟨_, n, _, hsearch⟩
    · obtain ⟨_, _, he⟩ := Schema.exists_of_reservedName? hreserved
      cases he
    · exact Schema.isCycle_of_firstError hsearch
  · -- What a history of calls leaves behind is a sound resolver for the same schema.
    obtain ⟨hsound, hschema, hrec⟩ := (Resolver.sound_fresh s recursive).after history
    have hsearch := hsound.firstError_of_resolve h
    rw [hschema, hrec] at hsearch
    exact Schema.isCycle_of_firstError hsearch

/-- Drafts `d` and groups `g`.  Viewing a draft, `v`, asks for working in its group, `w`, and that
for viewing a draft.  Groups have lists, `x`, and an entrance `y` to their work. -/
def sharedDrafts : Schema where
  types := [⟨"d", [⟨"a", [⟨"d", none⟩]⟩, ⟨"r", [⟨"g", none⟩]⟩],
      [⟨"v", .intersection [.name "a", .union [.name "a", .arrow "r" "w"]]⟩]⟩,
    ⟨"g", [⟨"b", [⟨"d", none⟩]⟩, ⟨"c", [⟨"g", none⟩]⟩],
      [⟨"w", .union [.name "c", .arrow "b" "v"]⟩, ⟨"x", .name "c"⟩, ⟨"y", .name "w"⟩]⟩]

/-- Compiling reports the cycle from the draft on.  A resolver that has listed `x`, and failed at
`v`, reports it from the group on when it is asked for `y`, which is not on the cycle. -/
theorem sharedDrafts_isCycle :
    sharedDrafts.compile =
        .error (.cycle ⟨"d", "v"⟩ [⟨"d", "v"⟩, ⟨"g", "w"⟩, ⟨"d", "v"⟩]) ∧
      sharedDrafts.IsCycle ⟨"d", "v"⟩ [⟨"d", "v"⟩, ⟨"g", "w"⟩, ⟨"d", "v"⟩] ∧
      ((Resolver.after ⟨sharedDrafts, false, []⟩ [⟨"g", "x"⟩, ⟨"d", "v"⟩]).resolve ⟨"g", "y"⟩).1 =
        .error (.cycle ⟨"g", "w"⟩ [⟨"g", "w"⟩, ⟨"d", "v"⟩, ⟨"g", "w"⟩]) ∧
      sharedDrafts.IsCycle ⟨"g", "w"⟩ [⟨"g", "w"⟩, ⟨"d", "v"⟩, ⟨"g", "w"⟩] := by
  have hcompile : sharedDrafts.compile =
      .error (.cycle ⟨"d", "v"⟩ [⟨"d", "v"⟩, ⟨"g", "w"⟩, ⟨"d", "v"⟩]) := by cbv
  have hcall : ((Resolver.after ⟨sharedDrafts, false, []⟩
      [⟨"g", "x"⟩, ⟨"d", "v"⟩]).resolve ⟨"g", "y"⟩).1 =
        .error (.cycle ⟨"g", "w"⟩ [⟨"g", "w"⟩, ⟨"d", "v"⟩, ⟨"g", "w"⟩]) := by cbv
  exact ⟨hcompile, (Schema.reported_cycle_isCycle (.inl hcompile)).1, hcall,
    (Schema.reported_cycle_isCycle (.inr ⟨_, _, hcall⟩)).1⟩

end Rebac
