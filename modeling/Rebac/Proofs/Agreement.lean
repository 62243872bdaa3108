import Rebac.Proofs.Emission

/-!
# Schemas that the resolver does not tell apart

Of a lookup it matters to the resolver whether a type, a relation or a permission is found, and
of a permission which steps it has.  Schemas that agree in this resolve alike: steps are followed
to the same memory or the same error (`Schema.Agrees.follow_eq`), and the same permissions are
emitted in the same order with the same rules.
-/

namespace Rebac

variable {s : Schema}

/-! ## Following what is needed -/

section Follow

variable {recursive : Bool} {path : List Member} {memory : Memory} {target origin : Member}

theorem Schema.follow_need_settled
    (h : s.judge recursive path memory target origin = .settled) (rest : List Step) :
    s.follow recursive path memory (.need target origin :: rest) =
      s.follow recursive path memory rest := by
  rw [Schema.follow]
  split
  · rfl
  · simp_all
  · simp_all

theorem Schema.follow_need_fail {e : CompileError}
    (h : s.judge recursive path memory target origin = .fail e) (rest : List Step) :
    s.follow recursive path memory (.need target origin :: rest) = .error e := by
  rw [Schema.follow]
  split
  · simp_all
  · simp_all
  · simp_all

/-- A need that has to be entered is followed first, and its expansion is remembered for the rest.
-/
theorem Schema.follow_need_enter {t : ObjectType} {p : Permission}
    (h : s.judge recursive path memory target origin = .enter t p) (rest : List Step) :
    s.follow recursive path memory (.need target origin :: rest) =
      match s.follow recursive (path ++ [target]) memory (p.expr.steps t p.name) with
      | .error e => .error e
      | .ok memory' =>
          s.follow recursive path
            ((target, Expansion.ofSteps s (p.expr.steps t p.name)) :: memory') rest := by
  rw [Schema.follow]
  split
  · simp_all
  · simp_all
  · rename_i hjudge
    cases h.symm.trans hjudge
    rfl

end Follow

/-! ## Agreement -/

mutual

/-- Of the type, the steps of an expression depend on its name and its relations only. -/
theorem Expr.steps_congr {t t' : ObjectType} (hname : t'.name = t.name)
    (hrelation : ∀ n, t'.relation? n = t.relation? n) :
    ∀ (e : Expr) (d : String), e.steps t' d = e.steps t d
  | .name _, _ => by rw [Expr.steps, Expr.steps, hname]
  | .arrow _ _, _ => by rw [Expr.steps, Expr.steps, hname, hrelation]
  | .union [], _ => by rw [Expr.steps, Expr.steps, hname]
  | .union (e :: es), d => by
      rw [Expr.steps, Expr.steps, Expr.steps_congr hname hrelation e d,
        Expr.stepsAll_congr hname hrelation es d]
  | .intersection [e, f], d => by
      have he := Expr.steps_congr hname hrelation e (operandName d 0)
      have hf := Expr.steps_congr hname hrelation f (operandName d 1)
      rw [Expr.steps, Expr.steps, he, hf, hname]
      cases e <;> cases f <;> simp [Expr.operandSteps, hname]
  | .intersection [], _ => by rw [Expr.steps, Expr.steps, hname] <;> simp
  | .intersection [_], _ => by rw [Expr.steps, Expr.steps, hname] <;> simp
  | .intersection (_ :: _ :: _ :: _), _ => by rw [Expr.steps, Expr.steps, hname] <;> simp
  | .exclusion _ _, _ => by rw [Expr.steps, Expr.steps, hname]
termination_by structural e => e

theorem Expr.stepsAll_congr {t t' : ObjectType} (hname : t'.name = t.name)
    (hrelation : ∀ n, t'.relation? n = t.relation? n) :
    ∀ (es : List Expr) (d : String), Expr.stepsAll t' d es = Expr.stepsAll t d es
  | [], _ => rfl
  | e :: es, d => by
      rw [Expr.stepsAll, Expr.stepsAll, Expr.steps_congr hname hrelation e d,
        Expr.stepsAll_congr hname hrelation es d]
termination_by structural es => es

end

/-- Two schemas have the same kind of thing for a member, and permissions with the same
steps. -/
inductive Schema.AgreesAt (s s' : Schema) (m : Member) : Prop where
  | noType : s.find m = .noType → s'.find m = .noType → AgreesAt s s' m
  | noName : s.find m = .noName → s'.find m = .noName → AgreesAt s s' m
  | relation {r r' : Relation} : s.find m = .relation r → s'.find m = .relation r' →
      AgreesAt s s' m
  | permission {t t' : ObjectType} {p p' : Permission} :
      s.find m = .permission t p → s'.find m = .permission t' p' →
        p'.expr.steps t' p'.name = p.expr.steps t p.name → AgreesAt s s' m

/-- The resolver does not tell the schemas apart. -/
def Schema.Agrees (s s' : Schema) : Prop := ∀ m, s.AgreesAt s' m

section Agrees

variable {s' : Schema} {recursive : Bool} {path : List Member} {memory : Memory}

/-- Agreeing schemas have the same permissions among what steps need. -/
theorem Schema.Agrees.permissions_eq (h : s.Agrees s') (steps : List Step) :
    Step.permissions s' steps = Step.permissions s steps := by
  rw [Step.permissions, Step.permissions]
  congr 1
  funext step
  cases step with
  | need m origin => cases h m <;> simp_all
  | _ => rfl

/-- The same steps leave the same expansion. -/
theorem Schema.Agrees.ofSteps_eq (h : s.Agrees s') (steps : List Step) :
    Expansion.ofSteps s' steps = Expansion.ofSteps s steps := by
  rw [Expansion.ofSteps, Expansion.ofSteps, h.permissions_eq]

/-- A verdict is the same in both schemas, unless a permission has to be entered. -/
theorem Schema.Agrees.judge_eq (h : s.Agrees s') {target origin : Member}
    (hne : ∀ t p, s.judge recursive path memory target origin ≠ .enter t p) :
    s'.judge recursive path memory target origin =
      s.judge recursive path memory target origin := by
  cases h target with
  | noType hfind hfind' => simp [Schema.judge, hfind, hfind']
  | noName hfind hfind' => simp [Schema.judge, hfind, hfind']
  | relation hfind hfind' => simp [Schema.judge, hfind, hfind']
  | @permission t t' p p' hfind hfind' _ =>
      rw [Schema.judge, Schema.judge, hfind, hfind']
      by_cases hknown : memory.knows target = true
      · simp [hknown]
      · by_cases hpath : target ∈ path
        · simp [hpath]
        · exact absurd (by simp [Schema.judge, hfind, hknown, hpath]) (hne t p)

/-- What has to be entered has to be entered in both, with the same steps. -/
theorem Schema.Agrees.judge_enter (h : s.Agrees s') {target origin : Member} {t : ObjectType}
    {p : Permission} (hjudge : s.judge recursive path memory target origin = .enter t p) :
    ∃ t' p', s'.judge recursive path memory target origin = .enter t' p' ∧
      p'.expr.steps t' p'.name = p.expr.steps t p.name := by
  obtain ⟨hfind, hnew, hpath⟩ := Schema.of_judge_enter hjudge
  cases h target with
  | permission hfind₁ hfind' hsteps =>
      cases hfind.symm.trans hfind₁
      exact ⟨_, _, by simp [Schema.judge, hfind', hnew, hpath], hsteps⟩
  | _ => simp_all

/-- Steps are followed alike. -/
theorem Schema.Agrees.follow_eq (h : s.Agrees s') (steps : List Step) :
    s'.follow recursive path memory steps = s.follow recursive path memory steps := by
  fun_induction Schema.follow s recursive path memory steps with
  | case1 path memory => rw [Schema.follow]
  | case2 path memory target origin rest hjudge ih =>
      rw [← h.judge_eq (by simp [hjudge])] at hjudge
      rw [Schema.follow_need_settled hjudge, ih]
  | case3 path memory target origin rest e hjudge =>
      rw [← h.judge_eq (by simp [hjudge])] at hjudge
      rw [Schema.follow_need_fail hjudge]
  | case4 path memory target origin rest t p hjudge e hfail ih =>
      obtain ⟨t', p', hjudge', hsteps⟩ := h.judge_enter hjudge
      rw [Schema.follow_need_enter hjudge', hsteps, ih, hfail]
  | case5 path memory target origin rest t p hjudge inner hinner ihinner ih =>
      obtain ⟨t', p', hjudge', hsteps⟩ := h.judge_enter hjudge
      rw [Schema.follow_need_enter hjudge', hsteps, ihinner, hinner, h.ofSteps_eq]
      exact ih
  | case6 path memory r rest ih => rw [Schema.follow, ih]
  | case7 path memory r rest ih => rw [Schema.follow, ih]
  | case8 path memory r rest ih => rw [Schema.follow, ih]
  | case9 path memory e rest => rw [Schema.follow]

/-! ## Emitting -/

/-- A visit lists the same permissions, and the resolvers differ in their schema only. -/
theorem Schema.Agrees.order_eq (h : s.Agrees s') (m : Member) :
    Resolver.order ⟨s', recursive, memory⟩ m =
      ((Resolver.order ⟨s, recursive, memory⟩ m).1,
        { (Resolver.order ⟨s, recursive, memory⟩ m).2 with schema := s' }) := by
  simp only [Resolver.order, h.follow_eq, h.permissions_eq]
  cases s.follow recursive [] memory [.need m m] with
  | error e => rfl
  | ok memory => rfl

/-- The same permissions are emitted in the same order. -/
theorem Schema.Agrees.emission_eq (h : s.Agrees s') (emitted todo : List Member) :
    Resolver.emission ⟨s', recursive, memory⟩ emitted todo =
      Resolver.emission ⟨s, recursive, memory⟩ emitted todo := by
  induction todo generalizing memory emitted with
  | nil => rfl
  | cons m ms ih =>
      rw [Resolver.emission, Resolver.emission, h.order_eq]
      have hschema := Resolver.schema_order ⟨s, recursive, memory⟩ m
      have hrec := Resolver.recursive_order ⟨s, recursive, memory⟩ m
      rcases horder : Resolver.order ⟨s, recursive, memory⟩ m with ⟨answer, ⟨schema, rec, memory'⟩⟩
      rw [horder] at hschema hrec
      -- After the visit the resolvers again differ in their schema only.
      cases hschema
      cases hrec
      cases answer with
      | error e => rfl
      | ok members => exact ih _

theorem Schema.Agrees.ownSteps_eq (h : s.Agrees s') (m : Member) :
    s'.ownSteps m = s.ownSteps m := by
  cases h m <;> simp_all [Schema.ownSteps]

/-- The same order gives the same rules. -/
theorem Schema.Agrees.ruleBase_eq (h : s.Agrees s') (hrows : s'.restrictions = s.restrictions)
    (order : List Member) : s'.ruleBase order = s.ruleBase order := by
  simp only [Schema.ruleBase, hrows, h.ownSteps_eq]

end Agrees

end Rebac
