import Rebac.Proofs.Grants

/-!
# Where a binary rule comes from

A binary rule comes from an arrow, and is meant as a join, or from an
intersection, and is meant as a conjunction.  The two leave the same kind of
record.  `Schema.readingAt` says what the rule at a position of a compiled rule
base was meant as.

The rules come in pieces (`Pieces`).  An arrow gives a rule for every type of
subject that its relation accepts, one after the other, and an intersection gives
one rule with two equal types.  So a compiled list of rules can be taken apart
into such pieces (`Schema.pieces_origins`), and what a rule is meant as depends on
the kind of its piece.
-/

namespace Rebac

variable {s : Schema} {order : List Member}

/-- The binary rule that a step gives, and what it is meant as. -/
def Step.origin? : Step → Option (BinaryRule × Reading)
  | .hop r => some (r, .join)
  | .meet r => some (r, .conjunction)
  | _ => none

/-- The binary rules among the steps, and what they are meant as. -/
def Step.origins (steps : List Step) : List (BinaryRule × Reading) := steps.filterMap Step.origin?

/-- The binary rules of permissions in the given order, and what they are meant
as. -/
def Schema.origins (s : Schema) (order : List Member) : List (BinaryRule × Reading) :=
  order.flatMap fun m => Step.origins (s.ownSteps m)

/-- What the binary rule at a position of the compiled rule base is meant as. -/
def Schema.readingAt (s : Schema) (recursive : Bool) (i : Nat) : Option Reading :=
  match s.emission recursive with
  | .ok order => (s.origins order)[i]?.map Prod.snd
  | .error _ => none

theorem Step.origins_append (steps steps' : List Step) :
    Step.origins (steps ++ steps') = Step.origins steps ++ Step.origins steps' :=
  List.filterMap_append

theorem Step.origins_map_fst (steps : List Step) :
    (Step.origins steps).map Prod.fst = Step.binaryRules steps := by
  rw [Step.origins, List.map_filterMap, Step.binaryRules]
  congr 1
  funext step
  cases step <;> rfl

theorem Step.length_origins (steps : List Step) :
    (Step.origins steps).length = (Step.binaryRules steps).length := by
  rw [← Step.origins_map_fst, List.length_map]

theorem Schema.origins_map_fst (s : Schema) (order : List Member) :
    (s.origins order).map Prod.fst = (s.ruleBase order).binary := by
  rw [Schema.origins, Schema.ruleBase, List.map_flatMap]
  simp only [Step.origins_map_fst]

theorem Schema.Emits.takes_of_mem_origins (h : s.Emits order) {r : BinaryRule} {k : Reading}
    (hr : (r, k) ∈ s.origins order) :
    ∃ t d e, s.Expands t d e ∧
      ((k = .join ∧ e.Takes t d (.hop r)) ∨ (k = .conjunction ∧ e.Takes t d (.meet r))) := by
  obtain ⟨m, hm, hr⟩ := List.mem_flatMap.mp hr
  obtain ⟨step, hstep, horigin⟩ := List.mem_filterMap.mp hr
  obtain ⟨t, d, e, he, htakes⟩ := h.exists_mem_iff.mp ⟨m, hm, hstep⟩
  refine ⟨t, d, e, he, ?_⟩
  cases step with
  | need target origin => cases horigin
  | copy r' => cases horigin
  | hop r' =>
      cases horigin
      exact Or.inl ⟨rfl, htakes⟩
  | meet r' =>
      cases horigin
      exact Or.inr ⟨rfl, htakes⟩
  | reject e => cases horigin

/-- Every position of a compiled rule base has a reading. -/
theorem Schema.exists_readingAt {recursive : Bool} {i : Nat} {r : BinaryRule}
    (horder : s.emission recursive = .ok order) (hr : (s.ruleBase order).binary[i]? = some r) :
    ∃ k, (s.origins order)[i]? = some (r, k) ∧ s.readingAt recursive i = some k := by
  rw [← Schema.origins_map_fst, List.getElem?_map] at hr
  obtain ⟨⟨r', k⟩, hk, rfl⟩ := Option.map_eq_some_iff.mp hr
  refine ⟨k, hk, ?_⟩
  rw [Schema.readingAt, horder]
  simp only [hk, Option.map_some]

/-- Where arrows leave their types, the types show everything. -/
theorem Schema.ArrowsLeave.readingAt_eq (hleave : s.ArrowsLeave) {recursive : Bool} {i : Nat}
    {r : BinaryRule} (horder : s.emission recursive = .ok order)
    (hr : (s.ruleBase order).binary[i]? = some r) :
    s.readingAt recursive i =
      some (if r.firstType = r.secondType then .conjunction else .join) := by
  obtain ⟨k, horigin, hreading⟩ := Schema.exists_readingAt horder hr
  rw [hreading]
  obtain ⟨t, d, e, he, ⟨rfl, htakes⟩ | ⟨rfl, htakes⟩⟩ :=
    (Schema.emission_emits horder).takes_of_mem_origins (List.mem_of_getElem? horigin)
  · cases htakes with
    | hop hbase hu => rw [if_neg (hleave _ _ _ _ _ he hbase _ hu)]
  · cases htakes with
    | meet => rw [if_pos rfl]

/-- A permission is found in the type that its name leads to. -/
theorem Schema.type?_of_find_permission {m : Member} {t : ObjectType} {p : Permission}
    (h : s.find m = .permission t p) : s.type? t.name = some t := by
  obtain ⟨_, htype, _, _⟩ := Schema.of_find_permission h
  rw [htype]
  exact (Schema.find_eq_permission_iff.mp h).1

/-! ## Pieces -/

/-- The second member of a binary rule.  In a rule of an arrow it is the relation that the
arrow follows. -/
def BinaryRule.base (r : BinaryRule) : Member := ⟨r.secondType, r.second⟩

/-- The rule for each of several first types. -/
def BinaryRule.spread (r : BinaryRule) (types : List String) : List BinaryRule :=
  types.map fun u => { r with firstType := u }

/-- The types of the subjects that a relation accepts.  Other members accept none. -/
def Schema.accepted (s : Schema) (m : Member) : List String :=
  match s.find m with
  | .relation r => r.subjects.map Subject.type
  | _ => []

/-- The rules can be taken apart into those of arrows and of intersections, where relations
accept subjects of the given types. -/
inductive Pieces (accepted : Member → List String) : List (BinaryRule × Reading) → Prop where
  | nil : Pieces accepted []
  | arrow {r : BinaryRule} {os : List (BinaryRule × Reading)} : isReserved r.first = false →
      Pieces accepted os → Pieces accepted ((r.spread (accepted r.base)).map (·, .join) ++ os)
  | meet {r : BinaryRule} {os : List (BinaryRule × Reading)} : r.firstType = r.secondType →
      Pieces accepted os → Pieces accepted ((r, .conjunction) :: os)

theorem Pieces.append {accepted : Member → List String} {os os' : List (BinaryRule × Reading)}
    (h : Pieces accepted os) (h' : Pieces accepted os') : Pieces accepted (os ++ os') := by
  induction h with
  | nil => exact h'
  | arrow hfirst _ ih =>
      rw [List.append_assoc]
      exact .arrow hfirst ih
  | meet htypes _ ih => exact .meet htypes ih

theorem Pieces.flatMap {α : Type} {accepted : Member → List String} {xs : List α}
    {f : α → List (BinaryRule × Reading)} (h : ∀ x ∈ xs, Pieces accepted (f x)) :
    Pieces accepted (xs.flatMap f) := by
  induction xs with
  | nil => exact .nil
  | cons x xs ih =>
      rw [List.flatMap_cons]
      exact (h x List.mem_cons_self).append (ih fun y hy => h y (List.mem_cons_of_mem x hy))

theorem Expr.origins_arrow {t : ObjectType} {base : String} {rel : Relation}
    (hbase : t.relation? base = some rel) (target d : String) :
    Step.origins ((Expr.arrow base target).steps t d) =
      (BinaryRule.spread ⟨t.name, target, t.name, base, d⟩ (rel.subjects.map Subject.type)).map
        (·, .join) := by
  simp only [Step.origins, Expr.steps, hbase, BinaryRule.spread, List.map_map]
  induction rel.subjects with
  | nil => rfl
  | cons u us ih =>
      rw [List.flatMap_cons, List.filterMap_append, ih]
      rfl

theorem Schema.accepted_of_relation? {t : ObjectType} {base : String} {rel : Relation}
    (htype : s.type? t.name = some t) (hbase : t.relation? base = some rel) :
    s.accepted ⟨t.name, base⟩ = rel.subjects.map Subject.type := by
  rw [Schema.accepted, Schema.find_eq_relation_iff.mpr ⟨t, htype, hbase⟩]

/-- An operand gives the rules of its own expression, or none if it is a name. -/
theorem Expr.pieces_operandSteps {t : ObjectType} {done : Member → Prop} {e : Expr} {d : String}
    {steps : List Step}
    (h : (∀ step ∈ steps, step.Passed s done) → Pieces s.accepted (Step.origins steps))
    (hpassed : ∀ step ∈ e.operandSteps t d steps, step.Passed s done) :
    Pieces s.accepted (Step.origins (e.operandSteps t d steps)) := by
  rcases e.isComposite_or_name with he | ⟨source, rfl⟩
  · rw [Expr.operandSteps_of_isComposite he] at hpassed ⊢
    exact h hpassed
  · exact .nil

section Expressions

variable {t : ObjectType} {done : Member → Prop}

/-- The rules of an arrow are one piece. -/
theorem Expr.pieces_arrow (htype : s.type? t.name = some t)
    (hnames : ∀ m, s.IsRelation m ∨ s.IsPermission m → isReserved m.name = false)
    {base target d : String}
    (hpassed : ∀ step ∈ (Expr.arrow base target).steps t d, step.Passed s done) :
    Pieces s.accepted (Step.origins ((Expr.arrow base target).steps t d)) := by
  cases hbase : t.relation? base with
  | none =>
      rw [Expr.steps, hbase]
      exact .nil
  | some rel =>
      rw [Expr.origins_arrow hbase, ← Schema.accepted_of_relation? htype hbase]
      cases hsubjects : rel.subjects with
      | nil =>
          rw [Schema.accepted_of_relation? htype hbase, hsubjects]
          exact .nil
      | cons u us =>
          have hu : u ∈ rel.subjects := by simp [hsubjects]
          have hneed := hpassed _ (Expr.mem_steps_arrow.mpr (.target hbase hu))
          have hfirst := hnames _ (hneed.imp id And.left)
          rw [← List.append_nil (List.map _ _)]
          exact .arrow (r := ⟨t.name, target, t.name, base, d⟩) hfirst .nil

mutual

/-- The rules of an expression come in pieces. -/
theorem Expr.pieces_steps (htype : s.type? t.name = some t)
    (hnames : ∀ m, s.IsRelation m ∨ s.IsPermission m → isReserved m.name = false) :
    ∀ (e : Expr) (d : String), (∀ step ∈ e.steps t d, step.Passed s done) →
      Pieces s.accepted (Step.origins (e.steps t d))
  | .name _, _, _ => .nil
  | .arrow _ _, _, hpassed => Expr.pieces_arrow htype hnames hpassed
  | .union [], _, _ => .nil
  | .union (e :: es), d, hpassed => by
      rw [Expr.steps, List.forall_mem_append] at hpassed
      rw [Expr.steps, Step.origins_append]
      exact (Expr.pieces_steps htype hnames e d hpassed.1).append
        (Expr.pieces_stepsAll htype hnames es d hpassed.2)
  | .intersection [e, f], d, hpassed => by
      rw [Expr.steps, List.forall_mem_append, List.forall_mem_append] at hpassed
      rw [Expr.steps, Step.origins_append, Step.origins_append]
      have he := Expr.pieces_steps htype hnames e (operandName d 0)
      have hf := Expr.pieces_steps htype hnames f (operandName d 1)
      exact ((Expr.pieces_operandSteps he hpassed.1.1).append
        (Expr.pieces_operandSteps hf hpassed.1.2)).append (.meet rfl .nil)
  | .intersection [], _, _ => .nil
  | .intersection [_], _, _ => .nil
  | .intersection (_ :: _ :: _ :: _), _, _ => .nil
  | .exclusion _ _, _, _ => .nil
termination_by structural e => e

theorem Expr.pieces_stepsAll (htype : s.type? t.name = some t)
    (hnames : ∀ m, s.IsRelation m ∨ s.IsPermission m → isReserved m.name = false) :
    ∀ (es : List Expr) (d : String), (∀ step ∈ Expr.stepsAll t d es, step.Passed s done) →
      Pieces s.accepted (Step.origins (Expr.stepsAll t d es))
  | [], _, _ => .nil
  | e :: es, d, hpassed => by
      rw [Expr.stepsAll, List.forall_mem_append] at hpassed
      rw [Expr.stepsAll, Step.origins_append]
      exact (Expr.pieces_steps htype hnames e d hpassed.1).append
        (Expr.pieces_stepsAll htype hnames es d hpassed.2)
termination_by structural es => es

end

end Expressions

/-- The binary rules of an emitted schema come in pieces. -/
theorem Schema.pieces_origins {recursive : Bool} (horder : s.emission recursive = .ok order) :
    Pieces s.accepted (s.origins order) := by
  have hemits := Schema.emission_emits horder
  apply Pieces.flatMap
  intro m hm
  obtain ⟨t, p, hfind⟩ := hemits.isPermission m hm
  have hpassed := hemits.passed m hm
  rw [Schema.ownSteps_of_find hfind] at hpassed ⊢
  exact Expr.pieces_steps (Schema.type?_of_find_permission hfind)
    (fun _ => Schema.name_not_isReserved horder) p.expr p.name hpassed

end Rebac
