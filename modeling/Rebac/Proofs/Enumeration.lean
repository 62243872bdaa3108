import Rebac.Proofs.Grants
import Rebac.Proofs.Listing
import Rebac.Proofs.References

/-!
# A rule base lists every permission once

Each permission has rules of its own, by a plain translation of its expression from left
to right.  `Expr.rules` is that translation, with nothing said about what the names in it
stand for.  The steps of an expression hold these rules in this order
(`Expr.filterMap_rule?_steps`), between needs and rejections.

A compiled rule base is the own rules of all declared permissions, one permission after
the other.  Each stands after those it refers to, unless they refer back to it.
-/

namespace Rebac

/-! ## Own rules -/

/-- The rules that an operand of an intersection brings.  A name brings none. -/
def Expr.operandRules (synthesized : List (UnaryRule ⊕ BinaryRule)) :
    Expr → List (UnaryRule ⊕ BinaryRule)
  | .name _ => []
  | _ => synthesized

mutual

/-- The rules that derive an expression of a type under a name, from left to right. -/
def Expr.rules (t : ObjectType) (d : String) : Expr → List (UnaryRule ⊕ BinaryRule)
  | .name source => [.inl ⟨t.name, source, d⟩]
  | .arrow base target =>
      match t.relation? base with
      | none => []
      | some r => r.subjects.map fun u => .inr ⟨u.type, target, t.name, base, d⟩
  | .union es => Expr.rulesAll t d es
  | .intersection [e, f] =>
      e.operandRules (e.rules t (operandName d 0)) ++
        f.operandRules (f.rules t (operandName d 1)) ++
        [.inr ⟨t.name, e.operandIdentity d 0, t.name, f.operandIdentity d 1, d⟩]
  | .intersection _ => []
  | .exclusion _ _ => []
termination_by structural e => e

/-- The rules of several expressions under one name. -/
def Expr.rulesAll (t : ObjectType) (d : String) : List Expr → List (UnaryRule ⊕ BinaryRule)
  | [] => []
  | e :: es => e.rules t d ++ Expr.rulesAll t d es
termination_by structural es => es

end

/-- The rule that a step gives. -/
def Step.rule? : Step → Option (UnaryRule ⊕ BinaryRule)
  | .copy r => some (.inl r)
  | .hop r | .meet r => some (.inr r)
  | .need _ _ | .reject _ => none

theorem Expr.filterMap_rule?_operandSteps (e : Expr) (t : ObjectType) (d : String)
    (steps : List Step) : (e.operandSteps t d steps).filterMap Step.rule? =
      e.operandRules (steps.filterMap Step.rule?) := by
  cases e <;> rfl

mutual

/-- The rules among the steps of an expression are its own rules. -/
theorem Expr.filterMap_rule?_steps (t : ObjectType) :
    ∀ (e : Expr) (d : String), (e.steps t d).filterMap Step.rule? = e.rules t d
  | .name _, _ => rfl
  | .arrow base target, d => by
      rw [Expr.steps, Expr.rules]
      cases t.relation? base with
      | none => rfl
      | some r =>
          simp only
          induction r.subjects with
          | nil => rfl
          | cons u us ih => exact congrArg (List.cons _) ih
  | .union [], _ => rfl
  | .union (e :: es), d => by
      rw [Expr.steps, Expr.rules, Expr.rulesAll, List.filterMap_append,
        Expr.filterMap_rule?_steps t e d, Expr.filterMap_rule?_stepsAll t es d]
  | .intersection [e, f], d => by
      have he := Expr.filterMap_rule?_steps t e (operandName d 0)
      have hf := Expr.filterMap_rule?_steps t f (operandName d 1)
      simp only [Expr.steps, Expr.rules, List.filterMap_append, Expr.filterMap_rule?_operandSteps,
        he, hf]
      rfl
  | .intersection [], _ => rfl
  | .intersection [_], _ => rfl
  | .intersection (_ :: _ :: _ :: _), _ => rfl
  | .exclusion _ _, _ => rfl
termination_by structural e => e

theorem Expr.filterMap_rule?_stepsAll (t : ObjectType) :
    ∀ (es : List Expr) (d : String),
      (Expr.stepsAll t d es).filterMap Step.rule? = Expr.rulesAll t d es
  | [], _ => rfl
  | e :: es, d => by
      rw [Expr.stepsAll, Expr.rulesAll, List.filterMap_append, Expr.filterMap_rule?_steps t e d,
        Expr.filterMap_rule?_stepsAll t es d]
termination_by structural es => es

end

/-- The own rules of a permission.  Other members have none. -/
def Schema.ownRules (s : Schema) (m : Member) : List (UnaryRule ⊕ BinaryRule) :=
  match s.find m with
  | .permission t p => p.expr.rules t p.name
  | _ => []

/-- The rules among the steps of a permission are its own rules. -/
theorem Schema.filterMap_rule?_ownSteps (s : Schema) (m : Member) :
    (s.ownSteps m).filterMap Step.rule? = s.ownRules m := by
  rw [Schema.ownSteps, Schema.ownRules]
  cases s.find m with
  | permission t p => exact p.expr.filterMap_rule?_steps t p.name
  | _ => rfl

theorem Schema.unaryRules_ownSteps (s : Schema) (m : Member) :
    Step.unaryRules (s.ownSteps m) = (s.ownRules m).filterMap Sum.getLeft? := by
  rw [← Schema.filterMap_rule?_ownSteps, List.filterMap_filterMap, Step.unaryRules]
  congr 1
  funext step
  cases step <;> rfl

theorem Schema.binaryRules_ownSteps (s : Schema) (m : Member) :
    Step.binaryRules (s.ownSteps m) = (s.ownRules m).filterMap Sum.getRight? := by
  rw [← Schema.filterMap_rule?_ownSteps, List.filterMap_filterMap, Step.binaryRules]
  congr 1
  funext step
  cases step <;> rfl

/-! ## The enumeration -/

/-- A compiled rule base is the own rules of the declared permissions, each listed once
and after those it refers to, apart from those that refer back to it. -/
theorem Schema.compile_enumerates {s : Schema} {recursive : Bool} {b : RuleBase}
    (hs : s.Unambiguous) (h : s.compile recursive = .ok b) :
    ∃ order : List Member, order.Nodup ∧ (∀ m, m ∈ order ↔ m ∈ s.permissionMembers) ∧
      b.unary = (order.flatMap fun m => (s.ownRules m).filterMap Sum.getLeft?) ∧
      b.binary = (order.flatMap fun m => (s.ownRules m).filterMap Sum.getRight?) ∧
      ∀ p q, s.Refers p q → ¬ Relation.TransGen s.Refers q p → [q, p].Sublist order := by
  obtain ⟨order, horder, rfl⟩ := Schema.emission_of_compile h
  have hemits := Schema.emission_emits horder
  have hlists := Schema.lists_emission horder
  refine ⟨order, hlists.nodup, ?_, ?_, ?_, ?_⟩
  · intro m
    rw [← hs.isPermission_iff]
    exact ⟨hemits.isPermission m, hemits.mem m⟩
  · simp only [Schema.ruleBase, Schema.unaryRules_ownSteps]
  · simp only [Schema.ruleBase, Schema.binaryRules_ownSteps]
  · intro p q hrefers hback
    have hp : p ∈ order := by
      obtain ⟨t, x, hfind, _⟩ := hrefers
      exact hemits.mem p ⟨t, x, hfind⟩
    -- What was emitted has no rejections, so its needs are its references.
    rcases hlists.first p hp q (hemits.refers_iff.mp hrefers) with hbefore | hreach
    · exact hbefore
    · exact absurd hreach.refers hback

/-- Teams `t` with leads `l`.  Those who may edit, `e`, and those who may review, `r`, may
do each other's work, and those who may watch, `w`, may review. -/
def pairedTeams : Schema where
  types := [⟨"t", [⟨"l", [⟨"t", none⟩]⟩],
    [⟨"e", .name "r"⟩, ⟨"r", .union [.name "e", .name "w"]⟩, ⟨"w", .name "l"⟩]⟩]

/-- The rules of paired teams, where neither of `e` and `r` can stand after the other. -/
def pairedTeamRules : RuleBase where
  restrictions := [⟨"t", "l", "t", none⟩]
  unary := [⟨"t", "l", "w"⟩, ⟨"t", "e", "r"⟩, ⟨"t", "w", "r"⟩, ⟨"t", "r", "e"⟩]
  binary := []

/-- Those who may edit and those who may review refer to each other, so nothing is said of their
order. -/
theorem pairedTeams_enumerated : pairedTeams.Unambiguous ∧
    pairedTeams.compile true = .ok pairedTeamRules ∧
    ∃ order : List Member, order.Nodup ∧ (∀ m, m ∈ order ↔ m ∈ pairedTeams.permissionMembers) ∧
      pairedTeamRules.unary =
        (order.flatMap fun m => (pairedTeams.ownRules m).filterMap Sum.getLeft?) ∧
      pairedTeamRules.binary =
        (order.flatMap fun m => (pairedTeams.ownRules m).filterMap Sum.getRight?) ∧
      ∀ p q, pairedTeams.Refers p q → ¬ Relation.TransGen pairedTeams.Refers q p →
        [q, p].Sublist order := by
  have hs : pairedTeams.Unambiguous := ⟨⟨by decide, by decide, by decide⟩, by decide⟩
  have h : pairedTeams.compile true = .ok pairedTeamRules := by cbv
  exact ⟨hs, h, Schema.compile_enumerates hs h⟩

end Rebac
