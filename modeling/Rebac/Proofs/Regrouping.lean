import Rebac.Proofs.Loops

/-!
# Intersections gathered to arrows

Where a relation leads from a type to itself and nowhere else, intersections that look like an arrow
and follow one another can be gathered to the arrow, if there are as many of them as the relation
accepts subjects.  They follow one another if their rules do.  Between them there may be names,
whose rules are unary.  The arrow takes the place of the first intersection, where `target` is
needed first.

Rules in a row lie inside one operand, or among the operands of a union.  This is seen from the
names they derive: the rules of an operand of an intersection derive names of its own, and the last
rule of an expression derives the name of the expression.
-/

namespace Rebac

/-! ## Lists that follow one another -/

section Lists

variable {α β : Type} {f : α → List β} {b : β}

/-- Equal elements in a row lie in one of the lists that follow one another, if none of the lists
ends with the element while a later one has it. -/
theorem exists_replicate_of_flatMap {n : Nat} (hn : 0 < n) {xs : List α} {before after : List β}
    (hxs : xs.Pairwise fun x y => b ∈ f y → (f x).getLast? ≠ some b)
    (h : xs.flatMap f = before ++ List.replicate n b ++ after) :
    ∃ xs₁ x xs₂ before' after', xs = xs₁ ++ x :: xs₂ ∧
      f x = before' ++ List.replicate n b ++ after' ∧ before = xs₁.flatMap f ++ before' ∧
      after = after' ++ xs₂.flatMap f := by
  induction xs generalizing before with
  | nil => simp [Nat.ne_of_gt hn] at h
  | cons x xs ih =>
      obtain ⟨hx, hxs⟩ := List.pairwise_cons.mp hxs
      rw [List.flatMap_cons, List.append_assoc] at h
      -- If the row begins in a later list, the first list stands before it.
      have hlater : ∀ rest, before = f x ++ rest →
          xs.flatMap f = rest ++ List.replicate n b ++ after → ∃ xs₁ x' xs₂ before' after',
            x :: xs = xs₁ ++ x' :: xs₂ ∧ f x' = before' ++ List.replicate n b ++ after' ∧
            before = xs₁.flatMap f ++ before' ∧ after = after' ++ xs₂.flatMap f := by
        intro rest hbefore hrest
        obtain ⟨xs₁, x', xs₂, before', after', rfl, hx', rfl, hafter⟩ := ih hxs hrest
        refine ⟨x :: xs₁, x', xs₂, before', after', rfl, hx', ?_, hafter⟩
        rw [hbefore, List.flatMap_cons, List.append_assoc]
      rcases List.append_eq_append_iff.mp h with ⟨rest, hbefore, hrest⟩ | ⟨start, hstart, hrest⟩
      · exact hlater rest hbefore (by rw [hrest, List.append_assoc])
      · rcases List.append_eq_append_iff.mp hrest with ⟨tail, rfl, hafter⟩ | ⟨tail, hrow, htail⟩
        · exact ⟨[], x, xs, before, tail, rfl, by rw [hstart, List.append_assoc], rfl, hafter⟩
        · by_cases hstop : tail = []
          · subst hstop
            rw [List.append_nil] at hrow
            rw [List.nil_append] at htail
            exact ⟨[], x, xs, before, [], rfl, by rw [hstart, hrow, List.append_nil], rfl,
              by rw [htail, List.nil_append]⟩
          · -- The row goes on in a later list, so the first list does not end with it.
            obtain ⟨hrowStart, hrowTail⟩ :
                (∀ a ∈ start, a = b) ∧ ∀ a ∈ tail, a = b := by
              rw [← List.forall_mem_append, ← hrow]
              exact fun a ha => List.eq_of_mem_replicate ha
            obtain ⟨c, tail, rfl⟩ := List.exists_cons_of_ne_nil hstop
            obtain rfl := hrowTail c List.mem_cons_self
            have hmem : c ∈ xs.flatMap f := by simp [htail]
            obtain ⟨y, hy, hcy⟩ := List.mem_flatMap.mp hmem
            have hlast := hx y hy hcy
            rcases List.eq_nil_or_concat start with rfl | ⟨start, a, rfl⟩
            · rw [List.append_nil] at hstart
              exact hlater [] (by rw [hstart, List.append_nil])
                (by rw [htail, hrow, List.nil_append, List.nil_append])
            · obtain rfl := hrowStart a (by simp)
              rw [hstart] at hlast
              simp at hlast

/-- Equal elements in a row lie in one of two lists that have no element in common and are followed
by another element. -/
theorem replicate_of_append_concat {n : Nat} (hn : 0 < n) {bs cs before after : List β} {a : β}
    (hdisjoint : b ∈ cs → b ∉ bs) (ha : b ≠ a)
    (h : bs ++ cs ++ [a] = before ++ List.replicate n b ++ after) :
    (∃ after', bs = before ++ List.replicate n b ++ after') ∨
      ∃ before' after', before = bs ++ before' ∧ cs = before' ++ List.replicate n b ++ after' := by
  have hpairwise : [bs, cs, [a]].Pairwise fun x y => b ∈ id y → (id x).getLast? ≠ some b := by
    simp only [List.pairwise_cons, List.mem_cons, List.not_mem_nil, or_false, forall_eq_or_imp,
      forall_eq, id_eq, ha, false_implies, and_true, List.Pairwise.nil, implies_true]
    exact fun hcs hbs => hdisjoint hcs (List.mem_of_getLast? hbs)
  obtain ⟨parts, part, parts', before', after', hparts, hpart, rfl, _⟩ :=
    exists_replicate_of_flatMap hn hpairwise (by simpa using h)
  have hmem : b ∈ part := by
    rw [id_eq] at hpart
    simp [hpart, Nat.ne_of_gt hn]
  match parts, hparts with
  | [], hparts =>
      cases hparts
      exact .inl ⟨after', hpart⟩
  | [_], hparts =>
      cases hparts
      exact .inr ⟨before', after', by simp, hpart⟩
  | [_, _], hparts =>
      cases hparts
      exact absurd (List.mem_singleton.mp hmem) ha
  | _ :: _ :: _ :: _, hparts => simp at hparts

/-- A list that follows one another is cut between two of its parts, if it is cut beside an element
that makes up a part of its own. -/
theorem exists_split_of_flatMap {xs : List α} {ys zs : List β}
    (hxs : ∀ x ∈ xs, b ∈ f x → f x = [b]) (hcut : ys.getLast? = some b ∨ zs.head? = some b)
    (h : xs.flatMap f = ys ++ zs) :
    ∃ xs₁ xs₂, xs = xs₁ ++ xs₂ ∧ xs₁.flatMap f = ys ∧ xs₂.flatMap f = zs := by
  rw [List.flatMap_def, List.flatten_eq_append_iff] at h
  rcases h with ⟨as, bs, hmap, rfl, rfl⟩ | ⟨as, us, c, cs, ds, hmap, rfl, rfl⟩
  · obtain ⟨xs₁, xs₂, rfl, rfl, rfl⟩ := List.map_eq_append_iff.mp hmap
    exact ⟨xs₁, xs₂, rfl, rfl, rfl⟩
  · obtain ⟨xs₁, xs₂, rfl, rfl, hmap₂⟩ := List.map_eq_append_iff.mp hmap
    obtain ⟨x, xs₂, rfl, hx, rfl⟩ := List.map_eq_cons_iff.mp hmap₂
    rcases List.eq_nil_or_concat us with rfl | ⟨us, a, rfl⟩
    · exact ⟨xs₁, x :: xs₂, rfl, by simp [List.flatMap_def], by simp [List.flatMap_def, hx]⟩
    · -- A part that is cut holds more than the element.
      have hmem : b ∈ f x := by
        rw [hx]
        rcases hcut with hcut | hcut
        · obtain rfl : a = b := by simpa using hcut
          simp
        · obtain rfl : c = b := by simpa using hcut
          simp
      have hlength := congrArg List.length (hxs x (by simp) hmem)
      simp only [hx, List.length_append, List.length_concat, List.length_cons,
        List.length_nil] at hlength
      omega

/-- Equal elements in a row that are parts of their own begin with one of these parts. -/
theorem exists_row_of_flatMap {n : Nat} (hn : 0 < n) {xs : List α} {before after : List β}
    (hxs : ∀ x ∈ xs, b ∈ f x → f x = [b])
    (h : xs.flatMap f = before ++ List.replicate n b ++ after) :
    ∃ xs₁ x xs₂ xs₃, xs = xs₁ ++ x :: xs₂ ++ xs₃ ∧ xs₁.flatMap f = before ∧ b ∈ f x ∧
      (x :: xs₂).flatMap f = List.replicate n b := by
  obtain ⟨n, rfl⟩ := Nat.exists_eq_succ_of_ne_zero (Nat.ne_of_gt hn)
  rw [List.append_assoc] at h
  obtain ⟨xs₁, rest, rfl, hbefore, hrest⟩ :=
    exists_split_of_flatMap hxs (.inr (by simp [List.replicate_succ])) h
  obtain ⟨row, xs₃, rfl, hrow, _⟩ := exists_split_of_flatMap
    (fun x hx => hxs x (List.mem_append_right _ hx))
    (.inl (by simp [List.getLast?_replicate])) hrest
  -- What stands in front of the first of them gives nothing.
  have hparts := hrow
  rw [List.flatMap_def, List.replicate_succ, List.flatten_eq_cons_iff] at hparts
  obtain ⟨as, bs, cs, hmap, hnil, _⟩ := hparts
  obtain ⟨silent, tail, rfl, rfl, htail⟩ := List.map_eq_append_iff.mp hmap
  obtain ⟨x, xs₂, rfl, hx, _⟩ := List.map_eq_cons_iff.mp htail
  have hsilent : silent.flatMap f = [] := by
    rw [List.flatMap_eq_nil_iff]
    exact fun y hy => hnil (f y) (List.mem_map_of_mem hy)
  refine ⟨xs₁ ++ silent, x, xs₂, xs₃, by simp, ?_, by simp [hx], ?_⟩
  · rw [List.flatMap_append, hbefore, hsilent, List.append_nil]
  · rwa [List.flatMap_append, hsilent, List.nil_append] at hrow

/-- What gives nothing can be left out. -/
theorem flatMap_filter_ne [DecidableEq α] {a : α} (ha : f a = []) (xs : List α) :
    (xs.filter (· ≠ a)).flatMap f = xs.flatMap f := by
  induction xs with
  | nil => rfl
  | cons x xs ih =>
      by_cases hx : x = a
      · rw [List.filter_cons_of_neg (by simpa using hx), ih, List.flatMap_cons, hx, ha,
          List.nil_append]
      · rw [List.filter_cons_of_pos (by simpa using hx), List.flatMap_cons, List.flatMap_cons, ih]

end Lists

variable {s : Schema} {t : ObjectType} {base target : String} {n : Nat}

/-! ## Gathering intersections -/

mutual

/-- The operands of nested unions. -/
def Expr.leaves : Expr → List Expr
  | .union (e :: es) => e.leaves ++ Expr.leavesAll es
  | e => [e]
termination_by structural e => e

/-- The operands of nested unions among expressions. -/
def Expr.leavesAll : List Expr → List Expr
  | [] => []
  | e :: es => e.leaves ++ Expr.leavesAll es
termination_by structural es => es

end

mutual

/-- The steps of an expression are those of its leaves. -/
theorem Expr.steps_leaves (t : ObjectType) (d : String) :
    ∀ e : Expr, e.leaves.flatMap (Expr.steps t d) = e.steps t d
  | .name _ => List.flatMap_singleton ..
  | .arrow _ _ => List.flatMap_singleton ..
  | .union [] => List.flatMap_singleton ..
  | .union (e :: es) => by
      rw [Expr.leaves, List.flatMap_append, Expr.steps, Expr.steps_leaves t d e,
        Expr.stepsAll_leaves t d es]
  | .intersection _ => List.flatMap_singleton ..
  | .exclusion _ _ => List.flatMap_singleton ..
termination_by structural e => e

theorem Expr.stepsAll_leaves (t : ObjectType) (d : String) :
    ∀ es : List Expr, (Expr.leavesAll es).flatMap (Expr.steps t d) = Expr.stepsAll t d es
  | [] => rfl
  | e :: es => by
      rw [Expr.leavesAll, List.flatMap_append, Expr.stepsAll, Expr.steps_leaves t d e,
        Expr.stepsAll_leaves t d es]
termination_by structural es => es

end

/-- The expression is not a union of others. -/
def Expr.IsLeaf : Expr → Prop
  | .union (_ :: _) => False
  | _ => True

mutual

theorem Expr.isLeaf_of_mem_leaves : ∀ (e : Expr), ∀ l ∈ e.leaves, l.IsLeaf
  | .name _, l, hl => List.mem_singleton.mp hl ▸ trivial
  | .arrow _ _, l, hl => List.mem_singleton.mp hl ▸ trivial
  | .union [], l, hl => List.mem_singleton.mp hl ▸ trivial
  | .union (e :: es), l, hl => by
      rw [Expr.leaves] at hl
      rcases List.mem_append.mp hl with hl | hl
      · exact Expr.isLeaf_of_mem_leaves e l hl
      · exact Expr.isLeaf_of_mem_leavesAll es l hl
  | .intersection _, l, hl => List.mem_singleton.mp hl ▸ trivial
  | .exclusion _ _, l, hl => List.mem_singleton.mp hl ▸ trivial
termination_by structural e => e

theorem Expr.isLeaf_of_mem_leavesAll : ∀ (es : List Expr), ∀ l ∈ Expr.leavesAll es, l.IsLeaf
  | [], l, hl => by cases hl
  | e :: es, l, hl => by
      rw [Expr.leavesAll] at hl
      rcases List.mem_append.mp hl with hl | hl
      · exact Expr.isLeaf_of_mem_leaves e l hl
      · exact Expr.isLeaf_of_mem_leavesAll es l hl
termination_by structural es => es

end

/-! ### Names of rules -/

section Derived

variable {r : BinaryRule} {d : String}

theorem Step.mem_binaryRules {steps : List Step} :
    r ∈ Step.binaryRules steps ↔ .hop r ∈ steps ∨ .meet r ∈ steps := by
  rw [Step.binaryRules, List.mem_filterMap]
  constructor
  · rintro ⟨step, hstep, hr⟩
    cases step <;> cases hr
    · exact .inl hstep
    · exact .inr hstep
  · rintro (hstep | hstep)
    · exact ⟨_, hstep, rfl⟩
    · exact ⟨_, hstep, rfl⟩

/-- The rules of an expression derive its name or synthesized names that begin with it. -/
theorem Expr.derived_of_mem {e : Expr} (h : r ∈ Step.binaryRules (e.steps t d)) :
    r.secondType = t.name ∧ ∃ is : List Nat, r.derived = is.foldl operandName d := by
  have hparts : ∃ π d' x, e.Expands d π d' x ∧
      (x.Takes t d' (.hop r) ∨ x.Takes t d' (.meet r)) := by
    rcases Step.mem_binaryRules.mp h with h | h
    · obtain ⟨π, d', x, hx, htakes⟩ := Expr.mem_steps_iff.mp h
      exact ⟨π, d', x, hx, .inl htakes⟩
    · obtain ⟨π, d', x, hx, htakes⟩ := Expr.mem_steps_iff.mp h
      exact ⟨π, d', x, hx, .inr htakes⟩
  obtain ⟨π, d', x, hx, htakes⟩ := hparts
  have hrule : r.secondType = t.name ∧ r.derived = d' := by
    rcases htakes with htakes | htakes
    · cases htakes
      exact ⟨rfl, rfl⟩
    · cases htakes
      exact ⟨rfl, rfl⟩
  exact ⟨hrule.1, meets π, hrule.2.trans hx.name_eq⟩

/-- What an operand brings are its own rules, and none if it is a name. -/
theorem Expr.mem_of_mem_operandSteps {e : Expr} {steps : List Step}
    (h : r ∈ Step.binaryRules (e.operandSteps t d steps)) : r ∈ Step.binaryRules steps := by
  rcases e.isComposite_or_name with he | ⟨source, rfl⟩
  · rwa [Expr.operandSteps_of_isComposite he] at h
  · cases h

/-- The rules of an operand derive another name than the intersection. -/
theorem Expr.derived_ne_of_mem_operand {e : Expr} {i : Nat}
    (h : r ∈ Step.binaryRules (e.steps t (operandName d i))) : r.derived ≠ d := by
  obtain ⟨_, is, his⟩ := Expr.derived_of_mem h
  intro heq
  have hnames : (i :: is).foldl operandName d = ([] : List Nat).foldl operandName d :=
    his.symm.trans heq
  exact List.cons_ne_nil i is (foldl_operandName_inj.mp hnames)

/-- The rules of the two operands derive different names. -/
theorem Expr.operand_eq_of_mem {e f : Expr} {i j : Nat}
    (h : r ∈ Step.binaryRules (e.steps t (operandName d i)))
    (h' : r ∈ Step.binaryRules (f.steps t (operandName d j))) : i = j := by
  obtain ⟨_, is, his⟩ := Expr.derived_of_mem h
  obtain ⟨_, js, hjs⟩ := Expr.derived_of_mem h'
  have heq : (i :: is).foldl operandName d = (j :: js).foldl operandName d := by
    rw [List.foldl_cons, List.foldl_cons, ← his, ← hjs]
  exact (List.cons.inj (foldl_operandName_inj.mp heq)).1

mutual

/-- The last rule of an expression derives its own name. -/
theorem Expr.derived_getLast? : ∀ (e : Expr) {d : String} {r : BinaryRule},
    (Step.binaryRules (e.steps t d)).getLast? = some r → r.derived = d
  | .name _, d, r, h => by cases h
  | .arrow b c, d, r, h => by
      have hmem := Step.mem_binaryRules.mp (List.mem_of_getLast? h)
      rw [Expr.mem_steps_arrow, Expr.mem_steps_arrow] at hmem
      rcases hmem with hmem | hmem
      · cases hmem
        rfl
      · cases hmem
  | .union [], d, r, h => by cases h
  | .union (e :: es), d, r, h => by
      rw [Expr.steps, Step.binaryRules_append, List.getLast?_append, Option.or_eq_some_iff] at h
      rcases h with h | ⟨_, h⟩
      · exact Expr.derived_getLast?_all es h
      · exact Expr.derived_getLast? e h
  | .intersection [e, f], d, r, h => by
      rw [Expr.steps, Step.binaryRules_append] at h
      simp only [Step.binaryRules, List.filterMap_cons, List.filterMap_nil, List.getLast?_append,
        List.getLast?_singleton, Option.some_or] at h
      cases h
      rfl
  | .intersection [], d, r, h => by cases h
  | .intersection [_], d, r, h => by cases h
  | .intersection (_ :: _ :: _ :: _), d, r, h => by cases h
  | .exclusion _ _, d, r, h => by cases h
termination_by structural e => e

theorem Expr.derived_getLast?_all : ∀ (es : List Expr) {d : String} {r : BinaryRule},
    (Step.binaryRules (Expr.stepsAll t d es)).getLast? = some r → r.derived = d
  | [], d, r, h => by cases h
  | e :: es, d, r, h => by
      rw [Expr.stepsAll, Step.binaryRules_append, List.getLast?_append, Option.or_eq_some_iff] at h
      rcases h with h | ⟨_, h⟩
      · exact Expr.derived_getLast?_all es h
      · exact Expr.derived_getLast? e h
termination_by structural es => es

end

/-- An operand that goes by a declared name is that name. -/
theorem Expr.eq_name_of_operandIdentity {e : Expr} {d n : String} {i : Nat}
    (h : e.operandIdentity d i = n) (hn : isReserved n = false) : e = .name n := by
  rcases e.isComposite_or_name with he | ⟨source, rfl⟩
  · rw [Expr.operandIdentity_of_isComposite he] at h
    rw [← h, isReserved_operandName] at hn
    cases hn
  · rw [← h]
    rfl

end Derived

/-- Another arrow does not have the rule of the loop. -/
theorem Expr.loop_not_mem_arrow {b c d d' : String}
    (hloop : Step.NoLoop t.name base target ((Expr.arrow b c).steps t d)) :
    .loop t.name base target d' ∉ Step.binaryRules ((Expr.arrow b c).steps t d) := by
  intro hr
  rcases Step.mem_binaryRules.mp hr with hhop | hmeet
  · exact hloop d' hhop
  · cases Expr.mem_steps_arrow.mp hmeet

/-! ### Joins in a row -/

/-- From the position on, the rule stands `n` times in a row and is meant as a join. -/
def Step.JoinsAt (steps : List Step) (i n : Nat) (r : BinaryRule) : Prop :=
  ∃ os : List (BinaryRule × Reading), os.length = i ∧
    os ++ List.replicate n (r, Reading.join) <+: Step.origins steps

section JoinsAt

variable {steps : List Step} {i : Nat} {r : BinaryRule} (h : Step.JoinsAt steps i n r)

include h

theorem Step.JoinsAt.append_right (steps' : List Step) : Step.JoinsAt (steps ++ steps') i n r := by
  obtain ⟨os, hlength, hprefix⟩ := h
  refine ⟨os, hlength, hprefix.trans ?_⟩
  rw [Step.origins_append]
  exact List.prefix_append _ _

theorem Step.JoinsAt.append_left (steps' : List Step) :
    Step.JoinsAt (steps' ++ steps) ((Step.binaryRules steps').length + i) n r := by
  obtain ⟨os, hlength, hprefix⟩ := h
  refine ⟨Step.origins steps' ++ os, ?_, ?_⟩
  · rw [List.length_append, Step.length_origins, hlength]
  · rwa [Step.origins_append, List.append_assoc, List.prefix_append_right_inj]

theorem Step.JoinsAt.getElem? {l : Nat} (hl : l < n) :
    (Step.origins steps)[i + l]? = some (r, .join) := by
  obtain ⟨os, rfl, os', hos'⟩ := h
  rw [← hos', List.append_assoc, List.getElem?_append_right (Nat.le_add_right _ _),
    Nat.add_sub_cancel_left, List.getElem?_append_left (by simpa using hl),
    List.getElem?_replicate_of_lt hl]

end JoinsAt

/-! ### Among the operands of unions -/

section Leaves

variable (h : t.Loops s base target n) {d : String}

include h

/-- The only leaf with the rule of the loop is the intersection, if no arrow is left. -/
theorem ObjectType.Loops.eq_meeting_of_mem {l : Expr} (hl : l.IsLeaf)
    (hloop : Step.NoLoop t.name base target (l.steps t d))
    (hr : .loop t.name base target d ∈ Step.binaryRules (l.steps t d)) :
    l = .meeting base target := by
  match l, hl with
  | .name _, _ => cases hr
  | .arrow _ _, _ => exact absurd hr (Expr.loop_not_mem_arrow hloop)
  | .union [], _ => cases hr
  | .intersection [], _ => cases hr
  | .intersection [_], _ => cases hr
  | .intersection (_ :: _ :: _ :: _), _ => cases hr
  | .exclusion _ _, _ => cases hr
  | .intersection [e, f], _ =>
      rw [Expr.steps, Step.binaryRules_append, Step.binaryRules_append, List.mem_append,
        List.mem_append] at hr
      rcases hr with (hr | hr) | hr
      · have hmem := Expr.mem_of_mem_operandSteps hr
        exact (Expr.derived_ne_of_mem_operand hmem rfl).elim
      · have hmem := Expr.mem_of_mem_operandSteps hr
        exact (Expr.derived_ne_of_mem_operand hmem rfl).elim
      · have hrule := List.mem_singleton.mp hr
        injection hrule with _ he _ hf
        rw [Expr.eq_name_of_operandIdentity he.symm h.target,
          Expr.eq_name_of_operandIdentity hf.symm h.base]
        rfl

/-- The arrow needs `target` at once, and the intersections need it one by one. -/
theorem ObjectType.Loops.walk_gathered (ls : List Expr) (memory : Memory)
    (path order : List Member) :
    memory.walk path order (Step.permissions s ((Expr.arrow base target).steps t d ++
        (ls.filter (· ≠ .meeting base target)).flatMap (Expr.steps t d))) =
      memory.walk path order (Step.permissions s ((Expr.meeting base target).steps t d ++
        ls.flatMap (Expr.steps t d))) := by
  have hother : (Step.permissions s ((ls.filter (· ≠ .meeting base target)).flatMap
        (Expr.steps t d))).filter (· ≠ ⟨t.name, target⟩) =
      (Step.permissions s (ls.flatMap (Expr.steps t d))).filter (· ≠ ⟨t.name, target⟩) := by
    have hmeeting : (Step.permissions s ((Expr.meeting base target).steps t d)).filter
        (· ≠ ⟨t.name, target⟩) = [] := by
      rw [h.permissions_meeting]
      refine List.filter_eq_nil_iff.mpr fun m hm => ?_
      obtain ⟨_, _, hmem⟩ := Step.mem_permissions.mp hm
      cases List.mem_singleton.mp hmem
      simp
    simp only [Step.permissions, List.filterMap_flatMap, List.filter_flatMap]
    exact flatMap_filter_ne (f := fun e : Expr =>
      (Step.permissions s (e.steps t d)).filter (· ≠ ⟨t.name, target⟩)) hmeeting ls
  rw [Step.permissions_append, Step.permissions_append, h.permissions_arrow,
    h.permissions_meeting]
  by_cases hx : s.IsPermission ⟨t.name, target⟩
  · obtain ⟨t', p, hfind⟩ := hx
    have hneed : Step.permissions s [.need ⟨t.name, target⟩ ⟨t.name, d⟩] = [⟨t.name, target⟩] := by
      simp [Step.permissions, hfind]
    obtain ⟨k, hk⟩ := Nat.exists_eq_succ_of_ne_zero (Nat.ne_of_gt h.pos)
    rw [hneed, hk, List.flatten_replicate_singleton, List.replicate_succ, List.cons_append,
      List.singleton_append, ← Memory.walk_cons_filter_ne, List.filter_append, hother,
      List.filter_eq_nil_iff.mpr (by simp), List.nil_append, Memory.walk_cons_filter_ne]
  · -- The name is a relation, and then it is not among what is needed.
    have hneed : Step.permissions s [.need ⟨t.name, target⟩ ⟨t.name, d⟩] = [] := by
      refine List.eq_nil_iff_forall_not_mem.mpr fun m hm => hx ?_
      obtain ⟨hperm, _, hmem⟩ := Step.mem_permissions.mp hm
      cases List.mem_singleton.mp hmem
      exact hperm
    have hself : ∀ steps : List Step, (Step.permissions s steps).filter (· ≠ ⟨t.name, target⟩) =
        Step.permissions s steps := by
      refine fun steps => List.filter_eq_self.mpr fun m hm => decide_eq_true ?_
      rintro rfl
      exact hx (Step.mem_permissions.mp hm).1
    rw [hself, hself] at hother
    rw [hneed, hother]
    simp

/-- Intersections, with leaves between them that give no binary rules, can be gathered to an
arrow. -/
theorem ObjectType.Loops.replaces_gathered {ls : List Expr}
    (hls : (Expr.meeting base target :: ls).flatMap (fun l => Step.binaryRules (l.steps t d)) =
      List.replicate n (.loop t.name base target d))
    (hother : ∀ l ∈ ls, .loop t.name base target d ∈ Step.binaryRules (l.steps t d) →
      l = .meeting base target) :
    Step.Replaces s ((Expr.arrow base target).steps t d ++
        (ls.filter (· ≠ .meeting base target)).flatMap (Expr.steps t d))
      ((Expr.meeting base target).steps t d ++ ls.flatMap (Expr.steps t d)) where
  unary := by
    rw [Step.unaryRules_append, Step.unaryRules_append]
    congr 1
    · rw [h.steps_arrow, Step.unaryRules, List.filterMap_flatten, List.map_replicate]
      simp [Expr.steps_meeting, Step.unaryRules]
    · simp only [Step.unaryRules, List.filterMap_flatMap]
      exact flatMap_filter_ne (f := fun e : Expr => Step.unaryRules (e.steps t d)) rfl ls
  binary := by
    have hsilent : Step.binaryRules ((ls.filter (· ≠ .meeting base target)).flatMap
        (Expr.steps t d)) = [] := by
      rw [Step.binaryRules_flatMap, List.flatMap_eq_nil_iff]
      intro l hl
      obtain ⟨hl, hne⟩ := List.mem_filter.mp hl
      refine List.eq_nil_iff_forall_not_mem.mpr fun r hr => ?_
      have hmem : r ∈ (Expr.meeting base target :: ls).flatMap
          (fun l => Step.binaryRules (l.steps t d)) :=
        List.mem_flatMap.mpr ⟨l, List.mem_cons_of_mem _ hl, hr⟩
      rw [hls] at hmem
      obtain rfl := List.eq_of_mem_replicate hmem
      exact of_decide_eq_true hne (hother l hl hr)
    rw [Step.binaryRules_append, hsilent, ← Step.origins_map_fst, h.origins_arrow,
      List.map_replicate, ← hls, List.append_nil, ← List.flatMap_cons, Step.binaryRules_flatMap]
  passed done hpassed := by
    obtain ⟨hmeeting, hrest⟩ := List.forall_mem_append.mp hpassed
    refine List.forall_mem_append.mpr ⟨fun step hstep => ?_, fun step hstep => ?_⟩
    · rw [h.steps_arrow] at hstep
      obtain ⟨steps, hsteps, hstep⟩ := List.mem_flatten.mp hstep
      rw [List.eq_of_mem_replicate hsteps] at hstep
      rcases List.mem_cons.mp hstep with rfl | hstep
      · exact hmeeting _ List.mem_cons_self
      · cases List.mem_singleton.mp hstep
        trivial
    · obtain ⟨l, hl, hstep⟩ := List.mem_flatMap.mp hstep
      exact hrest step (List.mem_flatMap.mpr ⟨l, List.mem_of_mem_filter hl, hstep⟩)
  walk := h.walk_gathered ls

/-- Where the rule of the loop stands often enough in the rules of an expression, an arrow can take
its place. -/
theorem ObjectType.Loops.exists_gathered_here {e : Expr}
    (hloop : Step.NoLoop t.name base target (e.steps t d)) {before after : List BinaryRule}
    (hrules : Step.binaryRules (e.steps t d) =
      before ++ List.replicate n (.loop t.name base target d) ++ after) :
    ∃ e' : Expr, e'.StandsFor s t d e ∧
      Step.JoinsAt (e'.steps t d) before.length n (.loop t.name base target d) := by
  have hcomposite : e.IsComposite := by
    rcases e.isComposite_or_name with he | ⟨source, rfl⟩
    · exact he
    · have hpos := h.pos
      have hlength : 0 = before.length + (n + after.length) := by
        simpa [Expr.steps, Step.binaryRules] using congrArg List.length hrules
      omega
  have hleaf : ∀ l ∈ e.leaves, .loop t.name base target d ∈ Step.binaryRules (l.steps t d) →
      l = .meeting base target := by
    intro l hl
    refine h.eq_meeting_of_mem (Expr.isLeaf_of_mem_leaves e l hl) fun d' hmem => hloop d' ?_
    rw [← Expr.steps_leaves]
    exact List.mem_flatMap.mpr ⟨l, hl, hmem⟩
  have hsingle : ∀ l ∈ e.leaves, .loop t.name base target d ∈ Step.binaryRules (l.steps t d) →
      Step.binaryRules (l.steps t d) = [.loop t.name base target d] := by
    intro l hl hmem
    rw [hleaf l hl hmem]
    rfl
  rw [← Expr.steps_leaves, Step.binaryRules_flatMap] at hrules
  obtain ⟨ls₁, l, ls₂, ls₃, hls, hbefore, hl, hrow⟩ := exists_row_of_flatMap h.pos hsingle hrules
  obtain rfl := hleaf l (by simp [hls]) hl
  have hreplaces := h.replaces_gathered hrow fun l hl => hleaf l (by simp [hls, hl])
  have hsteps : ∀ ls : List Expr, (Expr.union (ls₁ ++ .arrow base target :: ls)).steps t d =
      ls₁.flatMap (Expr.steps t d) ++ ((Expr.arrow base target).steps t d ++
        ls.flatMap (Expr.steps t d)) := by
    intro ls
    rw [Expr.steps_union (by simp), List.flatMap_append, List.flatMap_cons]
  -- The arrow takes the place of the first intersection, and the others go.
  refine ⟨.union (ls₁ ++ .arrow base target :: (ls₂.filter (· ≠ .meeting base target) ++ ls₃)),
    .inr ⟨trivial, hcomposite, ?_⟩, ?_⟩
  · rw [hsteps, ← Expr.steps_leaves t d e, hls]
    simp only [List.flatMap_append, List.flatMap_cons, List.append_assoc]
    refine (Step.Replaces.refl s _).append ?_
    rw [← List.append_assoc, ← List.append_assoc]
    exact hreplaces.append (.refl s _)
  · have harrow : Step.JoinsAt ((Expr.arrow base target).steps t d) 0 n
        (.loop t.name base target d) := ⟨[], rfl, by rw [h.origins_arrow, List.nil_append]⟩
    rw [hsteps, ← hbefore, ← Step.binaryRules_flatMap]
    exact (harrow.append_right _).append_left _

end Leaves

/-! ### Anywhere in an expression -/

/-- Where the rule of the loop stands `n` times in a row, some expression has the arrow in its
place. -/
def Expr.Gathers (s : Schema) (t : ObjectType) (base target : String) (n : Nat) (e : Expr) : Prop :=
  ∀ {d d' : String} {before after : List BinaryRule},
    Step.NoLoop t.name base target (e.steps t d) →
    Step.binaryRules (e.steps t d) =
      before ++ List.replicate n (.loop t.name base target d') ++ after →
    ∃ e' : Expr, e'.StandsFor s t d e ∧
      Step.JoinsAt (e'.steps t d) before.length n (.loop t.name base target d')

section Gathers

variable (h : t.Loops s base target n)

include h

/-- There is nothing to be gathered where the rule does not stand. -/
theorem ObjectType.Loops.gathers_of_noRules {e : Expr}
    (he : ∀ d d', Step.NoLoop t.name base target (e.steps t d) →
      .loop t.name base target d' ∉ Step.binaryRules (e.steps t d)) :
    e.Gathers s t base target n := by
  intro d d' before after hloop hrules
  refine absurd ?_ (he d d' hloop)
  simp [hrules, Nat.ne_of_gt h.pos]

theorem ObjectType.Loops.gathers_union {es : List Expr} (hes : es ≠ [])
    (ih : ∀ e ∈ es, e.Gathers s t base target n) :
    (Expr.union es).Gathers s t base target n := by
  intro d d' before after hloop hrules
  by_cases hd : d' = d
  · subst hd
    exact h.exists_gathered_here hloop hrules
  · rw [Expr.steps_union hes] at hloop hrules
    rw [Step.binaryRules_flatMap] at hrules
    -- The last rule of an operand derives `d`, so the row ends before it.
    have hlast : es.Pairwise fun e e' =>
        .loop t.name base target d' ∈ Step.binaryRules (e'.steps t d) →
          (Step.binaryRules (e.steps t d)).getLast? ≠ some (.loop t.name base target d') :=
      List.pairwise_of_forall fun e _ _ hlast => hd (e.derived_getLast? hlast)
    obtain ⟨es₁, e, es₂, before', after', rfl, he, rfl, rfl⟩ :=
      exists_replicate_of_flatMap h.pos hlast hrules
    have hloop' : Step.NoLoop t.name base target (e.steps t d) := fun d'' hmem =>
      hloop d'' (List.mem_flatMap.mpr ⟨e, by simp, hmem⟩)
    obtain ⟨e', hstands, hjoins⟩ := ih e (by simp) hloop' he
    refine ⟨_, hstands.union es₁ es₂, ?_⟩
    rw [Expr.steps_union (by simp), List.flatMap_append, List.flatMap_cons, List.length_append,
      ← Step.binaryRules_flatMap]
    exact (hjoins.append_right _).append_left _

/-- The same for the steps that make an operand available. -/
theorem ObjectType.Loops.gathers_operand {e : Expr} (ih : e.Gathers s t base target n)
    {d d' operand : String} {before after : List BinaryRule}
    (hloop : Step.NoLoop t.name base target (e.operandSteps t d (e.steps t operand)))
    (hrules : Step.binaryRules (e.operandSteps t d (e.steps t operand)) =
      before ++ List.replicate n (.loop t.name base target d') ++ after) :
    ∃ e' : Expr, e'.StandsFor s t operand e ∧ Step.JoinsAt
      (e'.operandSteps t d (e'.steps t operand)) before.length n (.loop t.name base target d') := by
  rcases e.isComposite_or_name with he | ⟨source, rfl⟩
  · rw [Expr.operandSteps_of_isComposite he] at hloop hrules
    obtain ⟨e', hstands, hjoins⟩ := ih hloop hrules
    have he' : e'.IsComposite := by
      rcases hstands with rfl | ⟨he', _, _⟩
      · exact he
      · exact he'
    refine ⟨e', hstands, ?_⟩
    rwa [Expr.operandSteps_of_isComposite he']
  · simp [Expr.operandSteps, Step.binaryRules, Nat.ne_of_gt h.pos] at hrules

theorem ObjectType.Loops.gathers_intersection {e f : Expr} (ihe : e.Gathers s t base target n)
    (ihf : f.Gathers s t base target n) :
    (Expr.intersection [e, f]).Gathers s t base target n := by
  intro d d' before after hloop hrules
  by_cases hd : d' = d
  · subst hd
    exact h.exists_gathered_here hloop hrules
  · rw [Expr.steps, Step.noLoop_append, Step.noLoop_append] at hloop
    obtain ⟨⟨hloope, hloopf⟩, _⟩ := hloop
    rw [Expr.steps, Step.binaryRules_append, Step.binaryRules_append] at hrules
    -- The operands and the intersection derive different names, so the row is in one operand.
    have hdisjoint : .loop t.name base target d' ∈
          Step.binaryRules (f.operandSteps t d (f.steps t (operandName d 1))) →
        .loop t.name base target d' ∉
          Step.binaryRules (e.operandSteps t d (e.steps t (operandName d 0))) := by
      intro hf he
      exact absurd (Expr.operand_eq_of_mem (Expr.mem_of_mem_operandSteps he)
        (Expr.mem_of_mem_operandSteps hf)) (by decide)
    have hmeet : BinaryRule.loop t.name base target d' ≠
        ⟨t.name, e.operandIdentity d 0, t.name, f.operandIdentity d 1, d⟩ :=
      fun heq => hd (congrArg BinaryRule.derived heq)
    have hrow := replicate_of_append_concat h.pos hdisjoint hmeet hrules
    rcases hrow with ⟨after', he⟩ | ⟨before', after', rfl, hf⟩
    · obtain ⟨e', hstands, hjoins⟩ := h.gathers_operand ihe hloope he
      refine ⟨_, hstands.intersection (.inl rfl), ?_⟩
      rw [Expr.steps]
      exact (hjoins.append_right _).append_right _
    · obtain ⟨f', hstands, hjoins⟩ := h.gathers_operand ihf hloopf hf
      refine ⟨_, .intersection (.inl rfl) hstands, ?_⟩
      rw [Expr.steps, List.length_append]
      exact (hjoins.append_left _).append_right _

end Gathers

mutual

/-- The arrow can take the place of intersections anywhere in an expression. -/
theorem ObjectType.Loops.gathers (h : t.Loops s base target n) :
    ∀ e : Expr, e.Gathers s t base target n
  | .name _ => h.gathers_of_noRules fun _ _ _ => by simp [Expr.steps, Step.binaryRules]
  | .arrow _ _ => h.gathers_of_noRules fun _ _ => Expr.loop_not_mem_arrow
  | .union [] => h.gathers_of_noRules fun _ _ _ => by simp [Expr.steps, Step.binaryRules]
  | .union (e :: es) =>
      h.gathers_union (List.cons_ne_nil e es)
        (List.forall_mem_cons.mpr ⟨h.gathers e, h.gathersAll es⟩)
  | .intersection [e, f] => h.gathers_intersection (h.gathers e) (h.gathers f)
  | .intersection [] => h.gathers_of_noRules fun _ _ _ => by simp [Expr.steps, Step.binaryRules]
  | .intersection [_] => h.gathers_of_noRules fun _ _ _ => by simp [Expr.steps, Step.binaryRules]
  | .intersection (_ :: _ :: _ :: _) =>
      h.gathers_of_noRules fun _ _ _ => by simp [Expr.steps, Step.binaryRules]
  | .exclusion _ _ => h.gathers_of_noRules fun _ _ _ => by simp [Expr.steps, Step.binaryRules]
termination_by structural e => e

theorem ObjectType.Loops.gathersAll (h : t.Loops s base target n) :
    ∀ es : List Expr, ∀ e ∈ es, e.Gathers s t base target n
  | [] => by simp
  | e :: es => List.forall_mem_cons.mpr ⟨h.gathers e, h.gathersAll es⟩
termination_by structural es => es

end

/-- Where the rule of the loop stands `n` times in a row, each of these rules can be meant either
way. -/
theorem ObjectType.Loops.exists_origins (h : t.Loops s base target n) {e : Expr} {d d' : String}
    {before after : List BinaryRule} (hrules : Step.binaryRules (e.steps t d) =
      before ++ List.replicate n (.loop t.name base target d') ++ after)
    {l : Nat} (hl : l < n) (k : Reading) :
    ∃ e' : Expr, Step.Replaces s (e'.steps t d) (e.steps t d) ∧
      (Step.origins (e'.steps t d))[before.length + l]? =
        some (.loop t.name base target d', k) := by
  obtain ⟨e₁, hstands, hloop⟩ := h.exists_spelled e d
  have hrules₁ := hstands.replaces.binary.trans hrules
  cases k with
  | conjunction =>
      -- Spelled out, the rule comes from intersections alone.
      refine ⟨e₁, hstands.replaces, ?_⟩
      have hrule : (Step.binaryRules (e₁.steps t d))[before.length + l]? =
          some (.loop t.name base target d') := by
        rw [hrules₁, List.append_assoc, List.getElem?_append_right (Nat.le_add_right _ _),
          Nat.add_sub_cancel_left, List.getElem?_append_left (by simpa using hl),
          List.getElem?_replicate_of_lt hl]
      rw [← Step.origins_map_fst, List.getElem?_map] at hrule
      obtain ⟨⟨r, k⟩, hk, rfl⟩ := Option.map_eq_some_iff.mp hrule
      cases k with
      | conjunction => exact hk
      | join =>
          obtain ⟨step, hstep, horigin⟩ := List.mem_filterMap.mp (List.mem_of_getElem? hk)
          cases step <;> cases horigin
          exact absurd hstep (hloop d')
  | join =>
      obtain ⟨e₂, hstands₂, hjoins⟩ := h.gathers e₁ hloop hrules₁
      exact ⟨e₂, hstands₂.replaces.trans hstands.replaces, hjoins.getElem? hl⟩

end Rebac
