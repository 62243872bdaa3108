import Rebac.Proofs.Classification
import Rebac.Proofs.Rewriting

/-!
# Loops that look like intersections

Suppose that a relation `base` leads from a type to the type itself and nowhere else.  Then the
arrow `base->target` gives one rule several times, as often as the relation accepts subjects, and
the intersection of `target` and `base` gives the same rule once.  Otherwise the two differ in what
they need of a relation only.  So an arrow can be spelled out as a union of intersections, anywhere
in an expression, and the rule base stays the same (`ObjectType.Loops.exists_spelled`).
-/

namespace Rebac

variable {s : Schema} {t : ObjectType} {base target : String} {n : Nat}

/-! ## Expressions in place of others -/

/-- The expression can be put in place of the other one where `d` is derived. -/
def Expr.StandsFor (s : Schema) (t : ObjectType) (d : String) (e' e : Expr) : Prop :=
  e' = e ∨ (e'.IsComposite ∧ e.IsComposite ∧ Step.Replaces s (e'.steps t d) (e.steps t d))

section StandsFor

variable {d : String} {e e' : Expr}

theorem Expr.StandsFor.replaces (h : e'.StandsFor s t d e) :
    Step.Replaces s (e'.steps t d) (e.steps t d) := by
  rcases h with rfl | ⟨_, _, h⟩
  · exact .refl s _
  · exact h

theorem Expr.StandsFor.operandIdentity (h : e'.StandsFor s t d e) (d' : String) (i : Nat) :
    e'.operandIdentity d' i = e.operandIdentity d' i := by
  rcases h with rfl | ⟨he', he, _⟩
  · rfl
  · rw [Expr.operandIdentity_of_isComposite he', Expr.operandIdentity_of_isComposite he]

theorem Expr.StandsFor.operandSteps (h : e'.StandsFor s t d e) (d' : String) :
    Step.Replaces s (e'.operandSteps t d' (e'.steps t d)) (e.operandSteps t d' (e.steps t d)) := by
  rcases h with rfl | ⟨he', he, h⟩
  · exact .refl s _
  · rwa [Expr.operandSteps_of_isComposite he', Expr.operandSteps_of_isComposite he]

theorem Expr.StandsFor.intersection {f f' : Expr} (h : e'.StandsFor s t (operandName d 0) e)
    (h' : f'.StandsFor s t (operandName d 1) f) :
    (Expr.intersection [e', f']).StandsFor s t d (.intersection [e, f]) := by
  refine .inr ⟨trivial, trivial, ?_⟩
  rw [Expr.steps, Expr.steps, h.operandIdentity, h'.operandIdentity]
  exact ((h.operandSteps d).append (h'.operandSteps d)).append (.refl s _)

theorem Expr.steps_union {es : List Expr} (hes : es ≠ []) (t : ObjectType) (d : String) :
    (Expr.union es).steps t d = es.flatMap (Expr.steps t d) := by
  obtain ⟨e, es, rfl⟩ := List.exists_cons_of_ne_nil hes
  rw [Expr.steps, Expr.stepsAll_eq_flatMap, List.flatMap_cons]

theorem Expr.StandsFor.union (h : e'.StandsFor s t d e) (es es' : List Expr) :
    (Expr.union (es ++ e' :: es')).StandsFor s t d (.union (es ++ e :: es')) := by
  refine .inr ⟨trivial, trivial, ?_⟩
  rw [Expr.steps_union (by simp), Expr.steps_union (by simp)]
  simp only [List.flatMap_append, List.flatMap_cons]
  exact (Step.Replaces.refl s _).append (h.replaces.append (.refl s _))

end StandsFor

/-! ## Loops -/

/-- The relation `base` of the type leads to the type itself and nowhere else, and accepts
`n` kinds of subjects.  Neither of the names is synthesized. -/
structure ObjectType.Loops (s : Schema) (t : ObjectType) (base target : String) (n : Nat) :
    Prop where
  type : s.type? t.name = some t
  leads : ∃ rel, t.relation? base = some rel ∧
    rel.subjects.map Subject.type = List.replicate n t.name
  base : isReserved base = false
  target : isReserved target = false
  pos : 0 < n

/-- The rule that both the arrow and the intersection give. -/
def BinaryRule.loop (type base target d : String) : BinaryRule := ⟨type, target, type, base, d⟩

/-- The intersection that looks like the arrow. -/
def Expr.meeting (base target : String) : Expr := .intersection [.name target, .name base]

section Loops

variable (h : t.Loops s base target n) (d : String)

theorem Expr.steps_meeting (t : ObjectType) (base target d : String) :
    (Expr.meeting base target).steps t d =
      [.need ⟨t.name, target⟩ ⟨t.name, d⟩, .need ⟨t.name, base⟩ ⟨t.name, d⟩,
        .meet (.loop t.name base target d)] := rfl

include h

theorem ObjectType.Loops.steps_arrow : (Expr.arrow base target).steps t d =
    (List.replicate n [.need ⟨t.name, target⟩ ⟨t.name, d⟩,
      .hop (.loop t.name base target d)]).flatten := by
  obtain ⟨rel, hrel, hsubjects⟩ := h.leads
  rw [Expr.steps, hrel]
  have hmap := congrArg (List.flatMap fun u => [Step.need ⟨u, target⟩ ⟨t.name, d⟩,
    .hop ⟨u, target, t.name, base, d⟩]) hsubjects
  rw [List.flatMap_map, List.flatMap_replicate] at hmap
  exact hmap

theorem ObjectType.Loops.isRelation : s.IsRelation ⟨t.name, base⟩ := by
  obtain ⟨rel, hrel, _⟩ := h.leads
  exact ⟨rel, Schema.find_eq_relation_iff.mpr ⟨t, h.type, hrel⟩⟩

theorem ObjectType.Loops.permissions_meeting :
    Step.permissions s ((Expr.meeting base target).steps t d) =
      Step.permissions s [.need ⟨t.name, target⟩ ⟨t.name, d⟩] := by
  obtain ⟨rel, hfind⟩ := h.isRelation
  simp [Expr.steps_meeting, Step.permissions, List.filterMap_cons, hfind]

theorem ObjectType.Loops.permissions_arrow :
    Step.permissions s ((Expr.arrow base target).steps t d) =
      (List.replicate n (Step.permissions s [.need ⟨t.name, target⟩ ⟨t.name, d⟩])).flatten := by
  rw [h.steps_arrow, Step.permissions, List.filterMap_flatten, List.map_replicate]
  rfl

theorem ObjectType.Loops.origins_arrow :
    Step.origins ((Expr.arrow base target).steps t d) =
      List.replicate n (.loop t.name base target d, .join) := by
  rw [h.steps_arrow, Step.origins, List.filterMap_flatten, List.map_replicate]
  exact List.flatten_replicate_singleton

/-- An arrow can be spelled out as a union of intersections. -/
theorem ObjectType.Loops.replaces_spelled :
    Step.Replaces s ((Expr.union (List.replicate n (.meeting base target))).steps t d)
      ((Expr.arrow base target).steps t d) := by
  have hne : List.replicate n (Expr.meeting base target) ≠ [] := by simp [Nat.ne_of_gt h.pos]
  rw [Expr.steps_union hne, List.flatMap_replicate]
  refine ⟨?_, ?_, ?_, ?_⟩
  · rw [h.steps_arrow, Step.unaryRules, Step.unaryRules, List.filterMap_flatten,
      List.filterMap_flatten, List.map_replicate, List.map_replicate]
    rfl
  · rw [h.steps_arrow, Step.binaryRules, Step.binaryRules, List.filterMap_flatten,
      List.filterMap_flatten, List.map_replicate, List.map_replicate]
    rfl
  · intro done hpassed step hstep
    have hneed : Step.need ⟨t.name, target⟩ ⟨t.name, d⟩ ∈ (Expr.arrow base target).steps t d := by
      simp [h.steps_arrow, Nat.ne_of_gt h.pos]
    obtain ⟨steps, hsteps, hstep⟩ := List.mem_flatten.mp hstep
    rw [List.eq_of_mem_replicate hsteps, Expr.steps_meeting] at hstep
    simp only [List.mem_cons, List.not_mem_nil, or_false] at hstep
    rcases hstep with rfl | rfl | rfl
    · exact hpassed _ hneed
    · exact .inl h.isRelation
    · trivial
  · intro memory path order
    rw [h.permissions_arrow, Step.permissions, List.filterMap_flatten, List.map_replicate]
    rw [← h.permissions_meeting]
    rfl

end Loops

/-! ## Spelling arrows out -/

/-- No step comes from the arrow. -/
def Step.NoLoop (type base target : String) (steps : List Step) : Prop :=
  ∀ d, .hop (.loop type base target d) ∉ steps

theorem Step.noLoop_append {type : String} {steps steps' : List Step} :
    Step.NoLoop type base target (steps ++ steps') ↔
      Step.NoLoop type base target steps ∧ Step.NoLoop type base target steps' := by
  simp only [Step.NoLoop, List.mem_append, not_or, forall_and]

theorem Step.noLoop_nil {type : String} : Step.NoLoop type base target [] :=
  fun _ => List.not_mem_nil

theorem Expr.noLoop_operandSteps {type d : String} {e : Expr} {steps : List Step}
    (h : Step.NoLoop type base target steps) :
    Step.NoLoop type base target (e.operandSteps t d steps) := by
  rcases e.isComposite_or_name with he | ⟨source, rfl⟩
  · rwa [Expr.operandSteps_of_isComposite he]
  · simp [Step.NoLoop, Expr.operandSteps]

/-- Of an arrow only the one in question gives loops. -/
theorem Expr.noLoop_arrow {b c d : String} (hne : ¬ (b = base ∧ c = target)) :
    Step.NoLoop t.name base target ((Expr.arrow b c).steps t d) := by
  intro d' hmem
  generalize hstep : Step.hop (.loop t.name base target d') = step at hmem
  cases Expr.mem_steps_arrow.mp hmem with
  | hop =>
      injection hstep with hrule
      injection hrule with _ hc _ hb
      exact hne ⟨hb.symm, hc.symm⟩
  | _ => cases hstep

theorem ObjectType.Loops.noLoop_spelled (h : t.Loops s base target n) (d : String) :
    Step.NoLoop t.name base target
      ((Expr.union (List.replicate n (.meeting base target))).steps t d) := by
  intro d' hmem
  rw [Expr.steps_union (by simp [Nat.ne_of_gt h.pos])] at hmem
  obtain ⟨e, he, hmem⟩ := List.mem_flatMap.mp hmem
  rw [List.eq_of_mem_replicate he, Expr.steps_meeting] at hmem
  simp at hmem

mutual

/-- In every expression the arrow can be spelled out. -/
theorem ObjectType.Loops.exists_spelled (h : t.Loops s base target n) : ∀ (e : Expr) (d : String),
    ∃ e' : Expr, e'.StandsFor s t d e ∧ Step.NoLoop t.name base target (e'.steps t d)
  | .name source, d => ⟨.name source, .inl rfl, by simp [Step.NoLoop, Expr.steps]⟩
  | .arrow b c, d => by
      by_cases hbc : b = base ∧ c = target
      · obtain ⟨rfl, rfl⟩ := hbc
        exact ⟨.union (List.replicate n (.meeting b c)),
          .inr ⟨trivial, trivial, h.replaces_spelled d⟩, h.noLoop_spelled d⟩
      · exact ⟨.arrow b c, .inl rfl, Expr.noLoop_arrow hbc⟩
  | .union [], d => ⟨.union [], .inl rfl, by simp [Step.NoLoop, Expr.steps]⟩
  | .union (e :: es), d => by
      obtain ⟨e', he, hloop⟩ := h.exists_spelled e d
      obtain ⟨es', hes, hloops⟩ := h.exists_spelledAll es d
      refine ⟨.union (e' :: es'), .inr ⟨trivial, trivial, ?_⟩, ?_⟩
      · rw [Expr.steps, Expr.steps]
        exact he.replaces.append hes
      · rw [Expr.steps]
        exact Step.noLoop_append.mpr ⟨hloop, hloops⟩
  | .intersection [e, f], d => by
      obtain ⟨e', he, hloop⟩ := h.exists_spelled e (operandName d 0)
      obtain ⟨f', hf, hloop'⟩ := h.exists_spelled f (operandName d 1)
      refine ⟨.intersection [e', f'], he.intersection hf, ?_⟩
      rw [Expr.steps, Step.noLoop_append, Step.noLoop_append]
      exact ⟨⟨Expr.noLoop_operandSteps hloop, Expr.noLoop_operandSteps hloop'⟩,
        by simp [Step.NoLoop]⟩
  | .intersection [], d => ⟨_, .inl rfl, by simp [Step.NoLoop, Expr.steps]⟩
  | .intersection [e], d => ⟨_, .inl rfl, by simp [Step.NoLoop, Expr.steps]⟩
  | .intersection (e :: f :: g :: es), d => ⟨_, .inl rfl, by simp [Step.NoLoop, Expr.steps]⟩
  | .exclusion e f, d => ⟨_, .inl rfl, by simp [Step.NoLoop, Expr.steps]⟩
termination_by structural e => e

theorem ObjectType.Loops.exists_spelledAll (h : t.Loops s base target n) :
    ∀ (es : List Expr) (d : String), ∃ es' : List Expr,
      Step.Replaces s (Expr.stepsAll t d es') (Expr.stepsAll t d es) ∧
        Step.NoLoop t.name base target (Expr.stepsAll t d es')
  | [], d => ⟨[], .refl s _, Step.noLoop_nil⟩
  | e :: es, d => by
      obtain ⟨e', he, hloop⟩ := h.exists_spelled e d
      obtain ⟨es', hes, hloops⟩ := h.exists_spelledAll es d
      refine ⟨e' :: es', ?_, ?_⟩
      · rw [Expr.stepsAll, Expr.stepsAll]
        exact he.replaces.append hes
      · rw [Expr.stepsAll]
        exact Step.noLoop_append.mpr ⟨hloop, hloops⟩
termination_by structural es => es

end

end Rebac
