import Rebac.Proofs.Emission

/-!
# The parts of an expression and their steps

The steps of an expression are taken part by part.  A union hands its derived
name on to its operands, and an intersection derives each operand that is not a
name under a name of its own.  `Expr.Expands` says which part is translated at
which position and for which name, and `Expr.Takes` which steps a part takes
itself.  Together they give the steps of the whole expression
(`Expr.mem_steps_iff`).

In a schema that is emitted, the rules are then exactly those of the parts of
permissions (`Schema.mem_unary_iff`, `Schema.mem_binary_iff`), and no part is
rejected.
-/

namespace Rebac

/-! ## Parts -/

/-- An expression other than a name. -/
def Expr.IsComposite : Expr → Prop
  | .name _ => False
  | _ => True

theorem Expr.operandIdentity_of_isComposite {e : Expr} (h : e.IsComposite) (d : String) (i : Nat) :
    e.operandIdentity d i = operandName d i := by
  cases e with
  | name source => exact absurd h id
  | arrow base target => rfl
  | union es => rfl
  | intersection es => rfl
  | exclusion e f => rfl

theorem Expr.operandSteps_of_isComposite {e : Expr} (h : e.IsComposite) (t : ObjectType)
    (d : String) (steps : List Step) : e.operandSteps t d steps = steps := by
  cases e with
  | name source => exact absurd h id
  | arrow base target => rfl
  | union es => rfl
  | intersection es => rfl
  | exclusion e f => rfl

/-- An operand is a name or composite. -/
theorem Expr.isComposite_or_name (e : Expr) : e.IsComposite ∨ ∃ source, e = .name source := by
  cases e with
  | name source => exact Or.inr ⟨source, rfl⟩
  | arrow base target => exact Or.inl trivial
  | union es => exact Or.inl trivial
  | intersection es => exact Or.inl trivial
  | exclusion e f => exact Or.inl trivial

/-- A turn on the way from an expression to one of its parts. -/
inductive Turn where
  | union (index : Nat)
  | meet (index : Nat)
  deriving Repr, DecidableEq

/-- Translating an expression for a name comes, at a position, to translating a
part of it for another name. -/
inductive Expr.Expands : String → Expr → List Turn → String → Expr → Prop where
  | here {d : String} {e : Expr} : Expands d e [] d e
  | union {d d' : String} {es : List Expr} {i : Nat} {e x : Expr} {π : List Turn} :
      es[i]? = some e → Expands d e π d' x → Expands d (.union es) (.union i :: π) d' x
  | meet {d d' : String} {e f g x : Expr} {i : Nat} {π : List Turn} :
      [e, f][i]? = some g → g.IsComposite → Expands (operandName d i) g π d' x →
        Expands d (.intersection [e, f]) (.meet i :: π) d' x

theorem Expr.Expands.trans {d d' d'' : String} {e x y : Expr} {π π' : List Turn}
    (h : e.Expands d π d' x) (h' : x.Expands d' π' d'' y) : e.Expands d (π ++ π') d'' y := by
  induction h with
  | here => exact h'
  | union hi _ ih => exact .union hi (ih h')
  | meet hi hg _ ih => exact .meet hi hg (ih h')

/-! ## Steps -/

theorem Expr.stepsAll_eq_flatMap (t : ObjectType) (d : String) (es : List Expr) :
    Expr.stepsAll t d es = es.flatMap (Expr.steps t d) := by
  induction es with
  | nil => rfl
  | cons e es ih => rw [Expr.stepsAll, List.flatMap_cons, ih]

/-- The steps that an expression takes itself, beside those of its composite
operands. -/
inductive Expr.Takes (t : ObjectType) (d : String) : Expr → Step → Prop where
  | need {source : String} : Takes t d (.name source) (.need ⟨t.name, source⟩ ⟨t.name, d⟩)
  | copy {source : String} : Takes t d (.name source) (.copy ⟨t.name, source, d⟩)
  | target {base target : String} {r : Relation} {u : Subject} :
      t.relation? base = some r → u ∈ r.subjects →
        Takes t d (.arrow base target) (.need ⟨u.type, target⟩ ⟨t.name, d⟩)
  | hop {base target : String} {r : Relation} {u : Subject} :
      t.relation? base = some r → u ∈ r.subjects →
        Takes t d (.arrow base target) (.hop ⟨u.type, target, t.name, base, d⟩)
  | operand {e f : Expr} {source : String} : .name source ∈ [e, f] →
      Takes t d (.intersection [e, f]) (.need ⟨t.name, source⟩ ⟨t.name, d⟩)
  | meet {e f : Expr} : Takes t d (.intersection [e, f])
      (.meet ⟨t.name, e.operandIdentity d 0, t.name, f.operandIdentity d 1, d⟩)
  | noRelation {base target : String} : t.relation? base = none →
      Takes t d (.arrow base target) (.reject (.undefinedRelation ⟨t.name, d⟩ base))
  | emptyUnion : Takes t d (.union []) (.reject (.unsupported ⟨t.name, d⟩ .emptyUnion))
  | operandCount {es : List Expr} : es.length ≠ 2 →
      Takes t d (.intersection es) (.reject (.unsupported ⟨t.name, d⟩ (.operandCount es.length)))
  | exclusion {e f : Expr} :
      Takes t d (.exclusion e f) (.reject (.unsupported ⟨t.name, d⟩ .exclusion))

theorem Expr.mem_steps_name {t : ObjectType} {d source : String} {step : Step} :
    step ∈ (Expr.name source).steps t d ↔ (Expr.name source).Takes t d step := by
  rw [Expr.steps]
  constructor
  · intro h
    rcases List.mem_cons.mp h with rfl | h
    · exact .need
    · rw [List.mem_singleton.mp h]
      exact .copy
  · intro h
    cases h with
    | need => exact List.mem_cons_self
    | copy => exact List.mem_cons_of_mem _ (List.mem_singleton_self _)

theorem Expr.mem_steps_arrow {t : ObjectType} {d base target : String} {step : Step} :
    step ∈ (Expr.arrow base target).steps t d ↔ (Expr.arrow base target).Takes t d step := by
  rw [Expr.steps]
  constructor
  · intro h
    split at h
    · rename_i hbase
      rw [List.mem_singleton.mp h]
      exact .noRelation hbase
    · rename_i r hbase
      obtain ⟨u, hu, hstep⟩ := List.mem_flatMap.mp h
      rcases List.mem_cons.mp hstep with rfl | hstep
      · exact .target hbase hu
      · rw [List.mem_singleton.mp hstep]
        exact .hop hbase hu
  · intro h
    cases h with
    | target hbase hu =>
        rw [hbase]
        exact List.mem_flatMap.mpr ⟨_, hu, List.mem_cons_self⟩
    | hop hbase hu =>
        rw [hbase]
        exact List.mem_flatMap.mpr ⟨_, hu, List.mem_cons_of_mem _ (List.mem_singleton_self _)⟩
    | noRelation hbase =>
        rw [hbase]
        exact List.mem_singleton_self _

theorem Expr.mem_steps_union {t : ObjectType} {d : String} {es : List Expr} {step : Step} :
    step ∈ (Expr.union es).steps t d ↔
      (Expr.union es).Takes t d step ∨ ∃ e ∈ es, step ∈ e.steps t d := by
  cases es with
  | nil =>
      rw [Expr.steps, List.mem_singleton]
      constructor
      · rintro rfl
        exact Or.inl .emptyUnion
      · rintro (h | ⟨e, he, _⟩)
        · cases h
          rfl
        · cases he
  | cons e es =>
      rw [Expr.steps, Expr.stepsAll_eq_flatMap, ← List.flatMap_cons, List.mem_flatMap]
      constructor
      · exact Or.inr
      · rintro (h | h)
        · cases h
        · exact h

/-- The steps of an operand are its need, if it is a name, or those that derive
the composite operand. -/
theorem Expr.mem_operandSteps {e : Expr} {t : ObjectType} {d : String} {steps : List Step}
    {step : Step} : step ∈ e.operandSteps t d steps ↔
      (∃ source, e = .name source ∧ step = .need ⟨t.name, source⟩ ⟨t.name, d⟩) ∨
        (e.IsComposite ∧ step ∈ steps) := by
  rcases e.isComposite_or_name with h | ⟨source, rfl⟩
  · rw [Expr.operandSteps_of_isComposite h]
    constructor
    · exact fun hstep => Or.inr ⟨h, hstep⟩
    · rintro (⟨source, rfl, _⟩ | ⟨_, hstep⟩)
      · exact absurd h id
      · exact hstep
  · simp [Expr.operandSteps, Expr.IsComposite]

/-- The steps of an intersection are its own and those of its composite
operands. -/
theorem Expr.mem_steps_intersection {t : ObjectType} {d : String} {e f : Expr} {step : Step} :
    step ∈ (Expr.intersection [e, f]).steps t d ↔
      (Expr.intersection [e, f]).Takes t d step ∨
        (e.IsComposite ∧ step ∈ e.steps t (operandName d 0)) ∨
        (f.IsComposite ∧ step ∈ f.steps t (operandName d 1)) := by
  rw [Expr.steps, List.mem_append, List.mem_append, Expr.mem_operandSteps, Expr.mem_operandSteps,
    List.mem_singleton]
  constructor
  · rintro (((⟨source, rfl, rfl⟩ | h) | (⟨source, rfl, rfl⟩ | h)) | rfl)
    · exact Or.inl (.operand List.mem_cons_self)
    · exact Or.inr (Or.inl h)
    · exact Or.inl (.operand (List.mem_cons_of_mem _ (List.mem_singleton_self _)))
    · exact Or.inr (Or.inr h)
    · exact Or.inl .meet
  · rintro (h | h | h)
    · cases h with
      | operand hsource =>
          rename_i source
          rcases List.mem_cons.mp hsource with he | hsource
          · exact Or.inl (Or.inl (Or.inl ⟨source, he.symm, rfl⟩))
          · exact Or.inl (Or.inr (Or.inl ⟨source, (List.mem_singleton.mp hsource).symm, rfl⟩))
      | meet => exact Or.inr rfl
      | operandCount hlength => exact absurd rfl hlength
    · exact Or.inl (Or.inl (Or.inr h))
    · exact Or.inl (Or.inr (Or.inr h))

/-- An intersection of another number of operands is rejected. -/
theorem Expr.mem_steps_of_length_ne {t : ObjectType} {d : String} {es : List Expr} {step : Step}
    (hlength : es.length ≠ 2) :
    step ∈ (Expr.intersection es).steps t d ↔ (Expr.intersection es).Takes t d step := by
  have hsteps : (Expr.intersection es).steps t d =
      [.reject (.unsupported ⟨t.name, d⟩ (.operandCount es.length))] := by
    match es, hlength with
    | [], _ => rfl
    | [_], _ => rfl
    | [_, _], hlength => exact absurd rfl hlength
    | _ :: _ :: _ :: _, _ => rfl
  rw [hsteps, List.mem_singleton]
  constructor
  · rintro rfl
    exact .operandCount hlength
  · intro h
    cases h with
    | operand _ => exact absurd rfl hlength
    | meet => exact absurd rfl hlength
    | operandCount _ => rfl

theorem Expr.mem_steps_exclusion {t : ObjectType} {d : String} {e f : Expr} {step : Step} :
    step ∈ (Expr.exclusion e f).steps t d ↔ (Expr.exclusion e f).Takes t d step := by
  rw [Expr.steps, List.mem_singleton]
  constructor
  · rintro rfl
    exact .exclusion
  · intro h
    cases h
    rfl

/-! ## Steps of the parts -/

mutual

/-- A step of an expression is taken by one of its parts. -/
theorem Expr.expands_of_mem_steps {t : ObjectType} : ∀ (e : Expr) {d : String} {step : Step},
    step ∈ e.steps t d → ∃ π d' x, e.Expands d π d' x ∧ x.Takes t d' step
  | .name source, d, step, h => ⟨[], d, .name source, .here, Expr.mem_steps_name.mp h⟩
  | .arrow base target, d, step, h => ⟨[], d, .arrow base target, .here, Expr.mem_steps_arrow.mp h⟩
  | .union es, d, step, h => by
      rcases Expr.mem_steps_union.mp h with h | h
      · exact ⟨[], d, .union es, .here, h⟩
      · obtain ⟨i, e, hi, π, d', x, hx, hstep⟩ := Expr.expands_of_mem_operand es h
        exact ⟨.union i :: π, d', x, .union hi hx, hstep⟩
  | .intersection [e, f], d, step, h => by
      rcases Expr.mem_steps_intersection.mp h with h | ⟨hcomp, h⟩ | ⟨hcomp, h⟩
      · exact ⟨[], d, .intersection [e, f], .here, h⟩
      · obtain ⟨π, d', x, hx, hstep⟩ := Expr.expands_of_mem_steps e h
        exact ⟨.meet 0 :: π, d', x, .meet rfl hcomp hx, hstep⟩
      · obtain ⟨π, d', x, hx, hstep⟩ := Expr.expands_of_mem_steps f h
        exact ⟨.meet 1 :: π, d', x, .meet rfl hcomp hx, hstep⟩
  | .intersection [], d, step, h =>
      ⟨[], d, _, .here, (Expr.mem_steps_of_length_ne (by simp)).mp h⟩
  | .intersection [_], d, step, h =>
      ⟨[], d, _, .here, (Expr.mem_steps_of_length_ne (by simp)).mp h⟩
  | .intersection (_ :: _ :: _ :: _), d, step, h =>
      ⟨[], d, _, .here, (Expr.mem_steps_of_length_ne (by simp)).mp h⟩
  | .exclusion e f, d, step, h => ⟨[], d, .exclusion e f, .here, Expr.mem_steps_exclusion.mp h⟩
termination_by structural e => e

/-- A step of an operand of a union is taken by one of the operand's parts. -/
theorem Expr.expands_of_mem_operand {t : ObjectType} : ∀ (es : List Expr) {d : String} {step : Step},
    (∃ e ∈ es, step ∈ e.steps t d) →
      ∃ (i : Nat) (e : Expr), es[i]? = some e ∧ ∃ π d' x, e.Expands d π d' x ∧ x.Takes t d' step
  | [], d, step, h => by
      obtain ⟨e, he, _⟩ := h
      cases he
  | e :: es, d, step, h => by
      obtain ⟨f, hf, hstep⟩ := h
      rcases List.mem_cons.mp hf with hfe | hf
      · rw [hfe] at hstep
        exact ⟨0, e, rfl, Expr.expands_of_mem_steps e hstep⟩
      · obtain ⟨i, g, hi, hg⟩ := Expr.expands_of_mem_operand es ⟨f, hf, hstep⟩
        exact ⟨i + 1, g, hi, hg⟩
termination_by structural es => es

end

/-- What an expression takes itself is among its steps. -/
theorem Expr.Takes.mem_steps {t : ObjectType} {d : String} {e : Expr} {step : Step}
    (h : e.Takes t d step) : step ∈ e.steps t d := by
  cases h with
  | need => exact Expr.mem_steps_name.mpr .need
  | copy => exact Expr.mem_steps_name.mpr .copy
  | target hbase hu => exact Expr.mem_steps_arrow.mpr (.target hbase hu)
  | hop hbase hu => exact Expr.mem_steps_arrow.mpr (.hop hbase hu)
  | operand hsource => exact Expr.mem_steps_intersection.mpr (Or.inl (.operand hsource))
  | meet => exact Expr.mem_steps_intersection.mpr (Or.inl .meet)
  | noRelation hbase => exact Expr.mem_steps_arrow.mpr (.noRelation hbase)
  | emptyUnion => exact Expr.mem_steps_union.mpr (Or.inl .emptyUnion)
  | operandCount hlength =>
      exact (Expr.mem_steps_of_length_ne hlength).mpr (.operandCount hlength)
  | exclusion => exact Expr.mem_steps_exclusion.mpr .exclusion

/-- The operands of an intersection stand at the positions 0 and 1. -/
theorem pair_getElem?_eq_some {α : Type} {e f g : α} {i : Nat} (h : [e, f][i]? = some g) :
    (i = 0 ∧ e = g) ∨ (i = 1 ∧ f = g) := by
  match i, h with
  | 0, h => exact Or.inl ⟨rfl, Option.some.inj h⟩
  | 1, h => exact Or.inr ⟨rfl, Option.some.inj h⟩
  | _ + 2, h => cases h

/-- The steps of an expression are those that its parts take. -/
theorem Expr.mem_steps_iff {t : ObjectType} {e : Expr} {d : String} {step : Step} :
    step ∈ e.steps t d ↔ ∃ π d' x, e.Expands d π d' x ∧ x.Takes t d' step := by
  constructor
  · exact Expr.expands_of_mem_steps e
  · rintro ⟨π, d', x, hx, hstep⟩
    induction hx with
    | here => exact hstep.mem_steps
    | union hi _ ih =>
        exact Expr.mem_steps_union.mpr (Or.inr ⟨_, List.mem_of_getElem? hi, ih hstep⟩)
    | meet hi hg _ ih =>
        apply Expr.mem_steps_intersection.mpr
        rcases pair_getElem?_eq_some hi with ⟨rfl, rfl⟩ | ⟨rfl, rfl⟩
        · exact Or.inr (Or.inl ⟨hg, ih hstep⟩)
        · exact Or.inr (Or.inr ⟨hg, ih hstep⟩)

/-! ## The parts of the permissions of a schema -/

/-- A permission of the schema, declared by the type `t`, has a part that is
translated for the name `d`. -/
def Schema.Expands (s : Schema) (t : ObjectType) (d : String) (e : Expr) : Prop :=
  ∃ m p π, s.find m = .permission t p ∧ p.expr.Expands p.name π d e

/-- A permission is translated for its own name. -/
theorem Schema.expands_permission {s : Schema} {m : Member} {t : ObjectType} {p : Permission}
    (h : s.find m = .permission t p) : s.Expands t p.name p.expr :=
  ⟨m, p, [], h, .here⟩

theorem Schema.Expands.part {s : Schema} {t : ObjectType} {d d' : String} {e x : Expr}
    {π : List Turn} (h : s.Expands t d e) (hx : e.Expands d π d' x) : s.Expands t d' x := by
  obtain ⟨m, p, π', hfind, he⟩ := h
  exact ⟨m, p, π' ++ π, hfind, he.trans hx⟩

theorem Schema.Expands.union {s : Schema} {t : ObjectType} {d : String} {es : List Expr} {e : Expr}
    (h : s.Expands t d (.union es)) (he : e ∈ es) : s.Expands t d e := by
  obtain ⟨i, hi⟩ := List.mem_iff_getElem?.mp he
  exact h.part (.union hi .here)

theorem Schema.Expands.operand {s : Schema} {t : ObjectType} {d : String} {e f g : Expr} {i : Nat}
    (h : s.Expands t d (.intersection [e, f])) (hi : [e, f][i]? = some g) (hg : g.IsComposite) :
    s.Expands t (operandName d i) g :=
  h.part (.meet hi hg .here)

/-- The base of an arrow is a relation by the lookups of the schema. -/
theorem Schema.isRelation_base {s : Schema} {m : Member} {t : ObjectType} {p : Permission}
    {base : String} {r : Relation} (hfind : s.find m = .permission t p)
    (hbase : t.relation? base = some r) : s.IsRelation ⟨t.name, base⟩ := by
  obtain ⟨htype, _, _⟩ := Schema.find_eq_permission_iff.mp hfind
  obtain ⟨_, hname, _, _⟩ := Schema.of_find_permission hfind
  rw [← hname] at htype
  exact ⟨r, Schema.find_eq_relation_iff.mpr ⟨t, htype, hbase⟩⟩

/-- The steps of a permission are those that its parts take. -/
theorem Schema.mem_ownSteps_iff {s : Schema} {m : Member} {step : Step} :
    step ∈ s.ownSteps m ↔ ∃ t p π d e, s.find m = .permission t p ∧
      p.expr.Expands p.name π d e ∧ e.Takes t d step := by
  constructor
  · intro hstep
    obtain ⟨t, p, hfind, hstep⟩ := Schema.of_mem_ownSteps hstep
    obtain ⟨π, d, x, hx, htakes⟩ := Expr.mem_steps_iff.mp hstep
    exact ⟨t, p, π, d, x, hfind, hx, htakes⟩
  · rintro ⟨t, p, π, d, e, hfind, he, htakes⟩
    rw [Schema.ownSteps_of_find hfind]
    exact Expr.mem_steps_iff.mpr ⟨π, d, e, he, htakes⟩

theorem Schema.exists_mem_ownSteps_iff {s : Schema} {step : Step} :
    (∃ m, step ∈ s.ownSteps m) ↔ ∃ t d e, s.Expands t d e ∧ e.Takes t d step := by
  constructor
  · rintro ⟨m, hstep⟩
    obtain ⟨t, p, π, d, e, hfind, he, htakes⟩ := Schema.mem_ownSteps_iff.mp hstep
    exact ⟨t, d, e, ⟨m, p, π, hfind, he⟩, htakes⟩
  · rintro ⟨t, d, e, ⟨m, p, π, hfind, he⟩, htakes⟩
    exact ⟨m, Schema.mem_ownSteps_iff.mpr ⟨t, p, π, d, e, hfind, he, htakes⟩⟩

section Emitted

variable {s : Schema} {order : List Member}

theorem Schema.mem_unary_ruleBase {r : UnaryRule} :
    r ∈ (s.ruleBase order).unary ↔ ∃ m ∈ order, .copy r ∈ s.ownSteps m := by
  rw [Schema.ruleBase, List.mem_flatMap]
  refine exists_congr fun m => and_congr_right fun _ => ?_
  rw [Step.unaryRules, List.mem_filterMap]
  constructor
  · rintro ⟨step, hstep, hr⟩
    cases step <;> cases hr
    exact hstep
  · intro hstep
    exact ⟨_, hstep, rfl⟩

theorem Schema.mem_binary_ruleBase {r : BinaryRule} :
    r ∈ (s.ruleBase order).binary ↔
      ∃ m ∈ order, .hop r ∈ s.ownSteps m ∨ .meet r ∈ s.ownSteps m := by
  rw [Schema.ruleBase, List.mem_flatMap]
  refine exists_congr fun m => and_congr_right fun _ => ?_
  rw [Step.binaryRules, List.mem_filterMap]
  constructor
  · rintro ⟨step, hstep, hr⟩
    cases step <;> cases hr
    · exact .inl hstep
    · exact .inr hstep
  · rintro (hstep | hstep)
    · exact ⟨_, hstep, rfl⟩
    · exact ⟨_, hstep, rfl⟩

/-- In an emitted schema whatever has steps is listed. -/
theorem Schema.Emits.exists_mem_iff (h : s.Emits order) {step : Step} :
    (∃ m ∈ order, step ∈ s.ownSteps m) ↔ ∃ t d e, s.Expands t d e ∧ e.Takes t d step := by
  rw [← Schema.exists_mem_ownSteps_iff]
  constructor
  · rintro ⟨m, _, hstep⟩
    exact ⟨m, hstep⟩
  · rintro ⟨m, hstep⟩
    obtain ⟨t, p, hfind, _⟩ := Schema.of_mem_ownSteps hstep
    exact ⟨m, h.mem m ⟨t, p, hfind⟩, hstep⟩

/-- In an emitted schema every step of a part is passed. -/
theorem Schema.Emits.passed_of_takes (h : s.Emits order) {t : ObjectType} {d : String} {e : Expr}
    {step : Step} (he : s.Expands t d e) (htakes : e.Takes t d step) :
    step.Passed s (· ∈ order) := by
  obtain ⟨m, hm, hstep⟩ := h.exists_mem_iff.mpr ⟨t, d, e, he, htakes⟩
  exact h.passed m hm step hstep

/-- The unary rules of an emitted schema are the copies of its parts. -/
theorem Schema.Emits.mem_unary_iff (h : s.Emits order) {r : UnaryRule} :
    r ∈ (s.ruleBase order).unary ↔ ∃ t d e, s.Expands t d e ∧ e.Takes t d (.copy r) := by
  rw [Schema.mem_unary_ruleBase, h.exists_mem_iff]

/-- The binary rules of an emitted schema are the hops and meets of its parts. -/
theorem Schema.Emits.mem_binary_iff (h : s.Emits order) {r : BinaryRule} :
    r ∈ (s.ruleBase order).binary ↔
      ∃ t d e, s.Expands t d e ∧ (e.Takes t d (.hop r) ∨ e.Takes t d (.meet r)) := by
  simp only [Schema.mem_binary_ruleBase, and_or_left, exists_or, h.exists_mem_iff]

/-- In an emitted schema an intersection has two operands. -/
theorem Schema.Emits.intersection_eq (h : s.Emits order) {t : ObjectType} {d : String}
    {es : List Expr} (he : s.Expands t d (.intersection es)) : ∃ e f, es = [e, f] := by
  by_cases hlength : es.length = 2
  · match es, hlength with
    | [e, f], _ => exact ⟨e, f, rfl⟩
  · exact absurd (h.passed_of_takes he (.operandCount hlength)) id

end Emitted

end Rebac
