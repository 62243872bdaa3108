import Rebac.Proofs.Agreement
import Rebac.Proofs.Listing
import Rebac.Validation

/-!
# Rewriting the expressions of a schema

Two schemas that differ in the expressions of their permissions only have the
same names, lookups, restriction table and problems.

They compile to the same rule base if the steps of each permission *replace* those it had
before (`Step.Replaces`): they give the same rules, nothing new is in their way, and they
need the same permissions.  A permission that was needed before may be needed again or
not, since the walk lists it once.  So the two schemas are emitted in the same order
(`Schema.Keeps.emission_mapExprs`).
-/

namespace Rebac

variable {s : Schema} {f : Member → Expr → Expr}

/-! ## Rewritten schemas -/

/-- The permission with another expression. -/
def Permission.mapExpr (g : String → Expr → Expr) (p : Permission) : Permission :=
  { p with expr := g p.name p.expr }

/-- The type with its expressions rewritten. -/
def ObjectType.mapExprs (f : Member → Expr → Expr) (t : ObjectType) : ObjectType :=
  { t with permissions := t.permissions.map (Permission.mapExpr fun n => f ⟨t.name, n⟩) }

/-- The schema with its expressions rewritten, depending on the permission. -/
def Schema.mapExprs (f : Member → Expr → Expr) (s : Schema) : Schema :=
  ⟨s.types.map (ObjectType.mapExprs f)⟩

/-- What a lookup finds after rewriting. -/
def Finding.mapExprs (f : Member → Expr → Expr) : Finding → Finding
  | .permission t p => .permission (t.mapExprs f) (p.mapExpr fun n => f ⟨t.name, n⟩)
  | finding => finding

theorem Schema.type?_mapExprs (f : Member → Expr → Expr) (s : Schema) (name : String) :
    (s.mapExprs f).type? name = (s.type? name).map (ObjectType.mapExprs f) :=
  List.find?_map

theorem ObjectType.permission?_mapExprs (f : Member → Expr → Expr) (t : ObjectType)
    (name : String) : (t.mapExprs f).permission? name =
      (t.permission? name).map (Permission.mapExpr fun n => f ⟨t.name, n⟩) :=
  List.find?_map

/-- Rewriting changes nothing in what a lookup finds but the expressions. -/
theorem Schema.find_mapExprs (f : Member → Expr → Expr) (s : Schema) (m : Member) :
    (s.mapExprs f).find m = (s.find m).mapExprs f := by
  simp only [Schema.find, Schema.type?_mapExprs]
  cases s.type? m.type with
  | none => rfl
  | some t =>
      have hrelation : (t.mapExprs f).relation? m.name = t.relation? m.name := rfl
      simp only [Option.map_some, hrelation, ObjectType.permission?_mapExprs]
      cases t.relation? m.name with
      | some r => rfl
      | none =>
          cases t.permission? m.name with
          | none => rfl
          | some p => rfl

theorem Schema.sortedTypes_mapExprs (f : Member → Expr → Expr) (s : Schema) :
    (s.mapExprs f).sortedTypes = s.sortedTypes.map (ObjectType.mapExprs f) := by
  symm
  apply List.map_mergeSort
  intro a _ b _
  rfl

theorem ObjectType.sortedPermissions_mapExprs (f : Member → Expr → Expr) (t : ObjectType) :
    (t.mapExprs f).sortedPermissions =
      t.sortedPermissions.map (Permission.mapExpr fun n => f ⟨t.name, n⟩) := by
  symm
  apply List.map_mergeSort
  intro a _ b _
  rfl

theorem ObjectType.declaredNames_mapExprs (f : Member → Expr → Expr) (t : ObjectType) :
    (t.mapExprs f).declaredNames = t.declaredNames := by
  simp only [ObjectType.declaredNames, ObjectType.mapExprs, List.map_map]
  rfl

theorem Schema.restrictions_mapExprs (f : Member → Expr → Expr) (s : Schema) :
    (s.mapExprs f).restrictions = s.restrictions := by
  simp only [Schema.restrictions, Schema.sortedTypes_mapExprs, List.flatMap_map]
  rfl

theorem Schema.reservedName?_mapExprs (f : Member → Expr → Expr) (s : Schema) :
    (s.mapExprs f).reservedName? = s.reservedName? := by
  simp only [Schema.reservedName?, Schema.sortedTypes_mapExprs, List.findSome?_map,
    Function.comp_def, ObjectType.declaredNames_mapExprs]
  rfl

/-- The permissions are taken in the same order after rewriting. -/
theorem Schema.sortedMembers_mapExprs (f : Member → Expr → Expr) (s : Schema) :
    (s.mapExprs f).sortedMembers = s.sortedMembers := by
  simp only [Schema.sortedMembers, Schema.sortedTypes_mapExprs, List.flatMap_map,
    ObjectType.sortedPermissions_mapExprs, List.map_map]
  rfl

theorem Relation.problems_mapExprs (f : Member → Expr → Expr) (s : Schema) (t : ObjectType) :
    Relation.problems (s.mapExprs f) (t.mapExprs f) = Relation.problems s t := by
  funext r
  simp only [Relation.problems, Schema.type?_mapExprs, ObjectType.permission?_mapExprs,
    Option.isSome_map, Option.isNone_map]
  rfl

/-- Validation does not look at expressions. -/
theorem Schema.problems_mapExprs (f : Member → Expr → Expr) (s : Schema) (limits : Limits) :
    (s.mapExprs f).problems limits = s.problems limits := by
  have htypes : ∀ t : ObjectType,
      (t.mapExprs f).problems (s.mapExprs f) limits = t.problems s limits := by
    intro t
    rw [ObjectType.problems, ObjectType.problems, Relation.problems_mapExprs,
      ObjectType.declaredNames_mapExprs]
    simp only [ObjectType.mapExprs, List.length_map]
  rw [Schema.problems, Schema.problems,
    show (s.mapExprs f).types = s.types.map (ObjectType.mapExprs f) from rfl, List.length_map,
    List.flatMap_map, funext htypes]

/-- The steps of an expression do not depend on other expressions of its type. -/
theorem Expr.steps_mapExprs (t : ObjectType) (e : Expr) (d : String) :
    e.steps (t.mapExprs f) d = e.steps t d := by
  apply Expr.steps_congr
  · rfl
  · intro n
    rfl

/-- The steps of a permission after rewriting. -/
theorem Schema.ownSteps_mapExprs {m : Member} {t : ObjectType} {p : Permission}
    (hfind : s.find m = .permission t p) :
    (s.mapExprs f).ownSteps m = (f m p.expr).steps t p.name := by
  have hfind' : (s.mapExprs f).find m =
      .permission (t.mapExprs f) (p.mapExpr fun n => f ⟨t.name, n⟩) := by
    rw [Schema.find_mapExprs, hfind]
    rfl
  obtain ⟨_, htype, _, hname⟩ := Schema.of_find_permission hfind
  rw [Schema.ownSteps_of_find hfind', Expr.steps_mapExprs]
  show (f ⟨t.name, p.name⟩ p.expr).steps t p.name = _
  rw [htype, hname]

theorem Schema.isPermission_mapExprs {m : Member} :
    (s.mapExprs f).IsPermission m ↔ s.IsPermission m := by
  rw [Schema.IsPermission, Schema.IsPermission, Schema.find_mapExprs]
  cases s.find m <;> simp [Finding.mapExprs]

theorem Schema.isRelation_mapExprs {m : Member} :
    (s.mapExprs f).IsRelation m ↔ s.IsRelation m := by
  rw [Schema.IsRelation, Schema.IsRelation, Schema.find_mapExprs]
  cases s.find m <;> simp [Finding.mapExprs]

theorem Step.passed_mapExprs {done : Member → Prop} {step : Step} :
    step.Passed (s.mapExprs f) done ↔ step.Passed s done := by
  cases step with
  | need m origin =>
    simp only [Step.Passed, Schema.isRelation_mapExprs, Schema.isPermission_mapExprs]
  | _ => rfl

theorem Step.permissions_mapExprs (steps : List Step) :
    Step.permissions (s.mapExprs f) steps = Step.permissions s steps := by
  rw [Step.permissions, Step.permissions]
  congr 1
  funext step
  cases step with
  | need m origin =>
      simp only [Schema.find_mapExprs]
      cases s.find m <;> rfl
  | _ => rfl

/-! ## Repetitions in a walk -/

/-- A walk goes through what it is asked for from left to right. -/
theorem Memory.walk_append (memory : Memory) (path order todo rest : List Member) :
    memory.walk path order (todo ++ rest) =
      memory.walk path (memory.walk path order todo) rest := by
  induction todo generalizing order with
  | nil => rw [List.nil_append, Memory.walk.eq_1]
  | cons m todo ih =>
      rw [List.cons_append, Memory.walk, Memory.walk]
      split
      · exact ih order
      · exact ih _

/-- What is listed or being listed can be left out. -/
theorem Memory.walk_filter_ne {memory : Memory} {path order : List Member} {m : Member}
    (h : m ∈ path ∨ m ∈ order) (todo : List Member) :
    memory.walk path order (todo.filter (· ≠ m)) = memory.walk path order todo := by
  induction todo generalizing order with
  | nil => rfl
  | cons n todo ih =>
      by_cases hnm : n = m
      · subst hnm
        rw [List.filter_cons_of_neg (by simp), ih h, Memory.walk, if_pos h]
      · rw [List.filter_cons_of_pos (by simpa using hnm), Memory.walk, Memory.walk]
        split
        · exact ih h
        · refine ih (h.imp_right fun hm => ?_)
          exact List.mem_append_left _ (memory.subset_walk _ order _ hm)

/-- A permission is listed where it is needed first. -/
theorem Memory.walk_cons_filter_ne (memory : Memory) (path order : List Member) (m : Member)
    (todo : List Member) :
    memory.walk path order (m :: todo.filter (· ≠ m)) = memory.walk path order (m :: todo) := by
  rw [Memory.walk, Memory.walk]
  split
  · rename_i hm
    exact Memory.walk_filter_ne hm todo
  · exact Memory.walk_filter_ne (.inr (List.mem_append_right _ (List.mem_singleton_self m))) todo

/-- An empty memory lists nothing but what it is asked for. -/
theorem Memory.mem_of_mem_walk_nil {path order todo : List Member} {m : Member}
    (h : m ∈ Memory.walk [] path order todo) : m ∈ order ∨ m ∈ todo := by
  induction todo generalizing order with
  | nil =>
      rw [Memory.walk] at h
      exact .inl h
  | cons n todo ih =>
      rw [Memory.walk] at h
      split at h
      · exact (ih h).imp_right (List.mem_cons_of_mem n)
      · rw [show Memory.needs [] n = [] from rfl, Memory.walk] at h
        rcases ih h with h | h
        · rcases List.mem_append.mp h with h | h
          · exact .inl h
          · exact .inr (List.mem_singleton.mp h ▸ List.mem_cons_self)
        · exact .inr (List.mem_cons_of_mem n h)

/-! ## Steps in place of others -/

theorem Step.unaryRules_append (steps steps' : List Step) :
    Step.unaryRules (steps ++ steps') = Step.unaryRules steps ++ Step.unaryRules steps' :=
  List.filterMap_append

theorem Step.binaryRules_append (steps steps' : List Step) :
    Step.binaryRules (steps ++ steps') = Step.binaryRules steps ++ Step.binaryRules steps' :=
  List.filterMap_append

theorem Step.binaryRules_flatMap {α : Type} (f : α → List Step) (xs : List α) :
    Step.binaryRules (xs.flatMap f) = xs.flatMap fun x => Step.binaryRules (f x) :=
  List.filterMap_flatMap

theorem Step.permissions_append (s : Schema) (steps steps' : List Step) :
    Step.permissions s (steps ++ steps') =
      Step.permissions s steps ++ Step.permissions s steps' :=
  List.filterMap_append

/-- The steps can be taken in place of the others: they give the same rules, they are
passed if the others are, and what they need is listed in the same order. -/
structure Step.Replaces (s : Schema) (steps' steps : List Step) : Prop where
  unary : Step.unaryRules steps' = Step.unaryRules steps
  binary : Step.binaryRules steps' = Step.binaryRules steps
  passed : ∀ done, (∀ step ∈ steps, step.Passed s done) → ∀ step ∈ steps', step.Passed s done
  walk : ∀ (memory : Memory) (path order : List Member),
    memory.walk path order (Step.permissions s steps') =
      memory.walk path order (Step.permissions s steps)

theorem Step.Replaces.refl (s : Schema) (steps : List Step) : Step.Replaces s steps steps where
  unary := rfl
  binary := rfl
  passed _ h := h
  walk _ _ _ := rfl

theorem Step.Replaces.trans {a b c : List Step} (h : Step.Replaces s a b)
    (h' : Step.Replaces s b c) : Step.Replaces s a c where
  unary := h.unary.trans h'.unary
  binary := h.binary.trans h'.binary
  passed done hc := h.passed done (h'.passed done hc)
  walk memory path order := (h.walk memory path order).trans (h'.walk memory path order)

/-- Steps can be replaced part by part. -/
theorem Step.Replaces.append {a a' b b' : List Step} (ha : Step.Replaces s a' a)
    (hb : Step.Replaces s b' b) : Step.Replaces s (a' ++ b') (a ++ b) where
  unary := by rw [Step.unaryRules_append, Step.unaryRules_append, ha.unary, hb.unary]
  binary := by rw [Step.binaryRules_append, Step.binaryRules_append, ha.binary, hb.binary]
  passed done h := by
    obtain ⟨hpa, hpb⟩ := List.forall_mem_append.mp h
    exact List.forall_mem_append.mpr ⟨ha.passed done hpa, hb.passed done hpb⟩
  walk memory path order := by
    rw [Step.permissions_append, Step.permissions_append, Memory.walk_append, Memory.walk_append,
      ha.walk, hb.walk]

/-- Steps that replace others need the same permissions. -/
theorem Step.Replaces.mem_permissions_iff {steps steps' : List Step}
    (h : Step.Replaces s steps' steps) {m : Member} :
    m ∈ Step.permissions s steps' ↔ m ∈ Step.permissions s steps := by
  have hlist : ∀ todo : List Member, m ∈ Memory.walk [] [] [] todo ↔ m ∈ todo := fun todo =>
    ⟨fun hm => (Memory.mem_of_mem_walk_nil hm).resolve_left List.not_mem_nil,
      fun hm => Memory.mem_walk hm List.not_mem_nil⟩
  rw [← hlist, h.walk, hlist]

/-! ## Compiling rewritten schemas -/

/-- The rewriting replaces the steps of every permission. -/
def Schema.Keeps (s : Schema) (f : Member → Expr → Expr) : Prop :=
  ∀ m t p, s.find m = .permission t p →
    Step.Replaces s ((f m p.expr).steps t p.name) (p.expr.steps t p.name)

section Keeps

variable {recursive : Bool} (h : s.Keeps f)

include h

/-- The rewriting replaces the steps of a member, whatever it is. -/
theorem Schema.Keeps.ownSteps (m : Member) :
    Step.Replaces s ((s.mapExprs f).ownSteps m) (s.ownSteps m) := by
  cases hfind : s.find m with
  | permission t p =>
      rw [Schema.ownSteps_mapExprs hfind, Schema.ownSteps_of_find hfind]
      exact h m t p hfind
  | _ =>
      rw [Schema.ownSteps, Schema.ownSteps, Schema.find_mapExprs, hfind]
      exact .refl s []

theorem Schema.Keeps.mem_needs_iff {m n : Member} :
    n ∈ (s.mapExprs f).needs m ↔ n ∈ s.needs m := by
  rw [Schema.needs, Step.permissions_mapExprs]
  exact (h.ownSteps m).mem_permissions_iff

/-- What a permission needs, directly or not, stays the same. -/
theorem Schema.Keeps.reaches_iff {m n : Member} :
    (s.mapExprs f).Reaches m n ↔ s.Reaches m n := by
  rw [Schema.Reaches, Schema.Reaches]
  simp only [h.mem_needs_iff]

/-- After rewriting a walk lists the same permissions in the same order. -/
theorem Schema.Keeps.walk_eq {memory other : Memory} (hmemory : memory.Settled s [])
    (hother : other.Settled (s.mapExprs f) []) {path order todo : List Member}
    (htodo : ∀ m ∈ todo, memory.knows m = true ∧ other.knows m = true) :
    memory.walk path order todo = other.walk path order todo := by
  refine Memory.walk_congr ?_ ?_ htodo
  · intro n hn hn' m hm
    refine ⟨hmemory.knows_of_mem_needs hm, hother.knows_of_mem_needs (m := n) ?_⟩
    rwa [hother.needs_eq hn', h.mem_needs_iff, ← hmemory.needs_eq hn]
  · -- The needs may be repeated differently, which makes no difference to the walk.
    intro n hn hn' path order
    rw [hmemory.needs_eq hn, hother.needs_eq hn', Schema.needs, Schema.needs,
      Step.permissions_mapExprs]
    exact ((h.ownSteps n).walk other path order).symm

/-- After rewriting the search still finds no error in what was emitted. -/
theorem Schema.Keeps.firstError_eq_none {order : List Member}
    (horder : s.emission recursive = .ok order) {m : Member}
    (hm : (Step.need m m).Passed s s.IsPermission) :
    (s.mapExprs f).firstError recursive [] [.need m m] = none := by
  have hemits := Schema.emission_emits horder
  have hpermission : ∀ n, s.IsPermission n → (s.mapExprs f).IsPermission n := fun n hn =>
    Schema.isPermission_mapExprs.mpr hn
  refine Schema.firstError_eq_none (s.mapExprs f).IsPermission ?_ ?_ ?_
  · simpa using (Step.passed_mapExprs.mpr hm).mono hpermission
  · intro n hn _ step hstep
    have hpassed := hemits.passed n (hemits.mem n (Schema.isPermission_mapExprs.mp hn))
    refine Step.passed_mapExprs.mpr (((h.ownSteps n).passed _ hpassed step hstep).mono ?_)
    exact fun k hk => hpermission k (hemits.isPermission k hk)
  · intro hrec n hn
    refine ⟨List.not_mem_nil, fun hreach => ?_⟩
    refine (Schema.lists_emission horder).acyclic hrec n ?_ (h.reaches_iff.mp hreach)
    exact hemits.mem n (Schema.isPermission_mapExprs.mp hn)

/-- A visit lists the same permissions after rewriting. -/
theorem Schema.Keeps.order_eq {order : List Member} (horder : s.emission recursive = .ok order)
    {memory memory' other : Memory} (hmemory : memory.Sound s recursive [])
    (hother : other.Sound (s.mapExprs f) recursive []) {m : Member} {members : List Member}
    (hok : Resolver.order ⟨s, recursive, memory⟩ m = (.ok members, ⟨s, recursive, memory'⟩)) :
    ∃ other', Resolver.order ⟨s.mapExprs f, recursive, other⟩ m =
      (.ok members, ⟨s.mapExprs f, recursive, other'⟩) := by
  rw [Resolver.order] at hok
  split at hok
  · cases hok
  · rename_i hfollow
    cases hok
    obtain ⟨hsettled, _, hpassed⟩ := Schema.follow_settled hfollow hmemory.settled
    have hm : (Step.need m m).Passed s s.IsPermission :=
      (hpassed _ (List.mem_singleton_self _)).mono fun n hn =>
        hsettled.isPermission (hn.resolve_right List.not_mem_nil)
    obtain ⟨other', hfollow'⟩ :=
      hother.exists_follow_eq_ok_iff.mpr (h.firstError_eq_none horder hm)
    refine ⟨other', ?_⟩
    have hsettled' := (Schema.follow_settled hfollow' hother.settled).1
    have hknows := Schema.knows_of_follow hfollow hmemory.settled
    have hknows' := Schema.knows_of_follow hfollow' hother.settled
    rw [Step.permissions_mapExprs] at hknows'
    simp only [Resolver.order, hfollow', Step.permissions_mapExprs,
      h.walk_eq hsettled hsettled' fun n hn => ⟨hknows n hn, hknows' n hn⟩]

/-- Visits list the same permissions after rewriting. -/
theorem Schema.Keeps.emission_eq {order : List Member} (horder : s.emission recursive = .ok order)
    {emitted todo order' : List Member} {memory other : Memory}
    (hmemory : memory.Sound s recursive []) (hother : other.Sound (s.mapExprs f) recursive [])
    (hok : Resolver.emission ⟨s, recursive, memory⟩ emitted todo = .ok order') :
    Resolver.emission ⟨s.mapExprs f, recursive, other⟩ emitted todo = .ok order' := by
  induction todo generalizing emitted memory other with
  | nil => exact hok
  | cons m ms ih =>
      rw [Resolver.emission] at hok
      have hsound := Resolver.Sound.order (r := ⟨s, recursive, memory⟩) hmemory m
      have hschema := Resolver.schema_order ⟨s, recursive, memory⟩ m
      have hrec := Resolver.recursive_order ⟨s, recursive, memory⟩ m
      rcases hvisit : Resolver.order ⟨s, recursive, memory⟩ m with ⟨answer, ⟨schema, rec, memory'⟩⟩
      rw [hvisit] at hok hsound hschema hrec
      cases hschema
      cases hrec
      cases answer with
      | error e => cases hok
      | ok members =>
          obtain ⟨other', hvisit'⟩ := h.order_eq horder hmemory hother hvisit
          have hsound' := Resolver.Sound.order (r := ⟨s.mapExprs f, recursive, other⟩) hother m
          rw [hvisit'] at hsound'
          rw [Resolver.emission, hvisit']
          exact ih hsound hsound' hok

/-- What was emitted is emitted in the same order after rewriting. -/
theorem Schema.Keeps.emission_mapExprs {order : List Member}
    (horder : s.emission recursive = .ok order) :
    (s.mapExprs f).emission recursive = .ok order := by
  have hok := horder
  rw [Schema.emission] at hok ⊢
  rw [Schema.reservedName?_mapExprs, Schema.sortedMembers_mapExprs]
  split at hok
  · cases hok
  · exact h.emission_eq horder (Memory.sound_nil s recursive [])
      (Memory.sound_nil (s.mapExprs f) recursive []) hok

/-- The same order gives the same rules. -/
theorem Schema.Keeps.ruleBase_mapExprs : (s.mapExprs f).ruleBase = s.ruleBase := by
  funext order
  have hunary := fun m => (h.ownSteps m).unary
  have hbinary := fun m => (h.ownSteps m).binary
  simp only [Schema.ruleBase, Schema.restrictions_mapExprs, hunary, hbinary]

/-- A rewriting that replaces steps keeps the compiled rule base. -/
theorem Schema.Keeps.compile_mapExprs {b : RuleBase} (hb : s.compile recursive = .ok b) :
    (s.mapExprs f).compile recursive = .ok b := by
  obtain ⟨order, horder, rfl⟩ := Schema.emission_of_compile hb
  rw [Schema.compile_eq, h.emission_mapExprs horder, h.ruleBase_mapExprs]
  rfl

end Keeps

end Rebac
