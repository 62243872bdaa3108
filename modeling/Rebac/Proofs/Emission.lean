import Rebac.Proofs.Following

/-!
# The order of emission

A compiled rule base is determined by the order in which permissions are
emitted.  `Schema.emission` computes that order alone, by the same visits, and
`Schema.ruleBase` lists the own rules of permissions in a given order.  Compiling
is the one after the other (`Schema.compile_eq`), so the rules can be studied
without the resolver: they are the steps of permissions, one permission after
the other, and nothing else.

An emission that ends has passed every step of every permission it lists, and it
lists every permission of the schema (`Schema.Emits`).
-/

namespace Rebac

/-! ## Rule bases from an order -/

/-- The rule base that lists the own rules of permissions in the given order. -/
def Schema.ruleBase (s : Schema) (order : List Member) : RuleBase where
  restrictions := s.restrictions
  unary := order.flatMap fun m => Step.unaryRules (s.ownSteps m)
  binary := order.flatMap fun m => Step.binaryRules (s.ownSteps m)

/-- Visits permissions in turn and lists those whose rules are emitted, after
those `emitted` before. -/
def Resolver.emission (r : Resolver) (emitted : List Member) :
    List Member → Except CompileError (List Member)
  | [] => .ok emitted
  | m :: ms =>
      match r.order m with
      | (.error e, _) => .error e
      | (.ok members, r') => r'.emission (emitted ++ members.filter (· ∉ emitted)) ms

/-- The permissions of a schema in the order in which their rules are emitted. -/
def Schema.emission (s : Schema) (recursive : Bool) : Except CompileError (List Member) :=
  match s.reservedName? with
  | some e => .error e
  | none => Resolver.emission ⟨s, recursive, []⟩ [] s.sortedMembers

/-! ## One visit -/

/-- Following from the empty path finishes every permission that the steps need. -/
theorem Schema.knows_of_follow {s : Schema} {recursive : Bool} {memory memory' : Memory}
    {steps : List Step} (hok : s.follow recursive [] memory steps = .ok memory')
    (hsettled : memory.Settled s []) :
    ∀ m ∈ Step.permissions s steps, memory'.knows m = true := by
  obtain ⟨_, _, hpassed⟩ := Schema.follow_settled hok hsettled
  intro m hm
  obtain ⟨hperm, origin, hneed⟩ := Step.mem_permissions.mp hm
  rcases hpassed _ hneed with hrel | ⟨_, hcov⟩
  · exact absurd hrel (Schema.not_isRelation_of_isPermission hperm)
  · exact hcov.resolve_right List.not_mem_nil

theorem Resolver.schema_order (r : Resolver) (m : Member) : (r.order m).2.schema = r.schema := by
  rw [Resolver.order]
  split <;> rfl

theorem Resolver.recursive_order (r : Resolver) (m : Member) :
    (r.order m).2.recursive = r.recursive := by
  rw [Resolver.order]
  split <;> rfl

/-- What a successful visit lists and leaves behind. -/
structure Resolver.Visited (r : Resolver) (m : Member) (members : List Member) (r' : Resolver) :
    Prop where
  /-- The schema is the same. -/
  schema : r'.schema = r.schema
  /-- The memory is settled. -/
  settled : r'.memory.Settled r.schema []
  /-- Everything listed is finished. -/
  knows : ∀ n ∈ members, r'.memory.knows n = true
  /-- The permission that was asked for is listed. -/
  mem : r.schema.IsPermission m → m ∈ members

theorem Resolver.order_visited {r r' : Resolver} {m : Member} {members : List Member}
    (hsettled : r.memory.Settled r.schema []) (h : r.order m = (.ok members, r')) :
    r.Visited m members r' := by
  rw [Resolver.order] at h
  split at h
  · cases h
  · rename_i memory hfollow
    cases h
    obtain ⟨hset, _, _⟩ := Schema.follow_settled hfollow hsettled
    have htodo := Schema.knows_of_follow hfollow hsettled
    refine ⟨rfl, hset, hset.walk_knows (by simp) htodo, ?_⟩
    intro hperm
    exact Memory.mem_walk (Step.mem_permissions.mpr ⟨hperm, m, List.mem_singleton_self _⟩)
      List.not_mem_nil

/-! ## Compiling along the order -/

/-- Looking finished permissions up gives the expansions of their own steps. -/
theorem Memory.Settled.filterMap_get? {s : Schema} {path : List Member} {memory : Memory}
    (h : memory.Settled s path) {members : List Member}
    (hknows : ∀ m ∈ members, memory.knows m = true) :
    members.filterMap memory.get? = members.map fun m => Expansion.ofSteps s (s.ownSteps m) := by
  induction members with
  | nil => rfl
  | cons m ms ih =>
      have hget := h.get?_eq (hknows m List.mem_cons_self)
      have hrest := ih fun n hn => hknows n (List.mem_cons_of_mem m hn)
      rw [List.filterMap_cons_some hget, List.map_cons, hrest]

section Finished

variable {s : Schema} {r : Resolver} {members : List Member}

theorem Resolver.unaryOf_eq (h : r.memory.Settled s [])
    (hknows : ∀ m ∈ members, r.memory.knows m = true) :
    r.unaryOf members = (s.ruleBase members).unary := by
  rw [Resolver.unaryOf, h.filterMap_get? hknows, List.flatMap_map]
  rfl

theorem Resolver.binaryOf_eq (h : r.memory.Settled s [])
    (hknows : ∀ m ∈ members, r.memory.knows m = true) :
    r.binaryOf members = (s.ruleBase members).binary := by
  rw [Resolver.binaryOf, h.filterMap_get? hknows, List.flatMap_map]
  rfl

/-- Adding the rules of finished permissions continues the order. -/
theorem Schema.ruleBase_extend (h : r.memory.Settled s [])
    (hknows : ∀ m ∈ members, r.memory.knows m = true) (emitted : List Member) :
    (s.ruleBase emitted).extend r members = s.ruleBase (emitted ++ members) := by
  simp only [RuleBase.extend, Resolver.unaryOf_eq h hknows, Resolver.binaryOf_eq h hknows,
    Schema.ruleBase, List.flatMap_append]

end Finished

/-- Emitting rules is listing permissions and writing their rules down. -/
theorem Resolver.emit_eq {s : Schema} : ∀ {r : Resolver} {emitted todo : List Member},
    r.schema = s → r.memory.Settled s [] →
      r.emit emitted (s.ruleBase emitted) todo = (r.emission emitted todo).map s.ruleBase
  | r, emitted, [], _, _ => rfl
  | r, emitted, m :: ms, hs, hsettled => by
      subst hs
      rw [Resolver.emit, Resolver.emission]
      rcases horder : r.order m with ⟨answer, r'⟩
      cases answer with
      | error e => rfl
      | ok members =>
          have hvisit := Resolver.order_visited hsettled horder
          have hfresh : ∀ n ∈ members.filter (· ∉ emitted), r'.memory.knows n = true :=
            fun n hn => hvisit.knows n (List.mem_filter.mp hn).1
          simp only [Schema.ruleBase_extend hvisit.settled hfresh]
          exact Resolver.emit_eq hvisit.schema hvisit.settled

/-- Compiling is finding the order of emission and writing the rules down. -/
theorem Schema.compile_eq (s : Schema) (recursive : Bool) :
    s.compile recursive = (s.emission recursive).map s.ruleBase := by
  rw [Schema.compile, Schema.emission]
  cases s.reservedName? with
  | some e => rfl
  | none => exact Resolver.emit_eq rfl (Memory.settled_nil s [])

theorem Schema.emission_of_compile {s : Schema} {recursive : Bool} {b : RuleBase}
    (h : s.compile recursive = .ok b) :
    ∃ order, s.emission recursive = .ok order ∧ b = s.ruleBase order := by
  rw [Schema.compile_eq] at h
  cases horder : s.emission recursive with
  | error e =>
      rw [horder] at h
      cases h
  | ok order =>
      rw [horder] at h
      cases h
      exact ⟨order, rfl, rfl⟩

/-! ## What is emitted -/

/-- The order lists every permission and nothing else, and no step of a
permission is in the way. -/
structure Schema.Emits (s : Schema) (order : List Member) : Prop where
  /-- What is listed is a permission. -/
  isPermission : ∀ m ∈ order, s.IsPermission m
  /-- Every permission is listed. -/
  mem : ∀ m, s.IsPermission m → m ∈ order
  /-- The steps of what is listed are passed. -/
  passed : ∀ m ∈ order, ∀ step ∈ s.ownSteps m, step.Passed s (· ∈ order)

/-- Visits list permissions whose steps are passed, and all that they were asked
for. -/
theorem Resolver.emission_lists {s : Schema} : ∀ {r : Resolver} {emitted todo order : List Member},
    r.schema = s → r.memory.Settled s [] → r.emission emitted todo = .ok order →
      (∀ m ∈ emitted, s.IsPermission m ∧ ∀ step ∈ s.ownSteps m, step.Passed s s.IsPermission) →
      emitted ⊆ order ∧ (∀ m ∈ todo, s.IsPermission m → m ∈ order) ∧
        ∀ m ∈ order, s.IsPermission m ∧ ∀ step ∈ s.ownSteps m, step.Passed s s.IsPermission
  | r, emitted, [], order, _, _, hok, hemitted => by
      cases hok
      exact ⟨List.Subset.refl _, by simp, hemitted⟩
  | r, emitted, m :: ms, order, hs, hsettled, hok, hemitted => by
      subst hs
      rw [Resolver.emission] at hok
      rcases horder : r.order m with ⟨answer, r'⟩
      rw [horder] at hok
      cases answer with
      | error e => cases hok
      | ok members =>
          have hvisit := Resolver.order_visited hsettled horder
          have hlisted : ∀ n ∈ emitted ++ members.filter (· ∉ emitted),
              r.schema.IsPermission n ∧
                ∀ step ∈ r.schema.ownSteps n, step.Passed r.schema r.schema.IsPermission := by
            intro n hn
            rcases List.mem_append.mp hn with hn | hn
            · exact hemitted n hn
            · have hknows := hvisit.knows n (List.mem_filter.mp hn).1
              refine ⟨hvisit.settled.isPermission hknows, ?_⟩
              intro step hstep
              refine (hvisit.settled.passed n hknows step hstep).mono ?_
              intro k hk
              exact hvisit.settled.isPermission (hk.resolve_right List.not_mem_nil)
          obtain ⟨hsub, htodo, hall⟩ :=
            Resolver.emission_lists hvisit.schema hvisit.settled hok hlisted
          refine ⟨fun n hn => hsub (List.mem_append_left _ hn), ?_, hall⟩
          refine List.forall_mem_cons.mpr ⟨?_, htodo⟩
          intro hperm
          apply hsub
          -- A permission that was emitted before is not fresh, but listed already.
          by_cases hm : m ∈ emitted
          · exact List.mem_append_left _ hm
          · exact List.mem_append_right _
              (List.mem_filter.mpr ⟨hvisit.mem hperm, by simpa using hm⟩)

theorem Schema.mem_sortedMembers_iff {s : Schema} {m : Member} :
    m ∈ s.sortedMembers ↔ m ∈ s.permissionMembers := by
  simp only [Schema.sortedMembers, Schema.permissionMembers, Schema.sortedTypes,
    ObjectType.sortedPermissions, List.mem_flatMap, List.mem_map, List.mem_mergeSort]

/-- Every permission is visited. -/
theorem Schema.mem_sortedMembers {s : Schema} {m : Member} (h : s.IsPermission m) :
    m ∈ s.sortedMembers := by
  obtain ⟨t, p, hfind⟩ := h
  exact Schema.mem_sortedMembers_iff.mpr (Schema.mem_permissionMembers hfind)

/-- An emission that ends has listed every permission and passed every step. -/
theorem Schema.emission_emits {s : Schema} {recursive : Bool} {order : List Member}
    (h : s.emission recursive = .ok order) : s.Emits order := by
  rw [Schema.emission] at h
  split at h
  · cases h
  · obtain ⟨_, htodo, hall⟩ :=
      Resolver.emission_lists rfl (Memory.settled_nil s []) h (by simp)
    have hmem : ∀ m, s.IsPermission m → m ∈ order := fun m hm =>
      htodo m (Schema.mem_sortedMembers hm) hm
    exact ⟨fun m hm => (hall m hm).1, hmem, fun m hm step hstep =>
      ((hall m hm).2 step hstep).mono hmem⟩

/-! ## Names that are not reserved -/

/-- A schema that is emitted declares no reserved name. -/
theorem Schema.not_isReserved_of_emission {s : Schema} {recursive : Bool} {order : List Member}
    (h : s.emission recursive = .ok order) {t : ObjectType} (ht : t ∈ s.types) {n : String}
    (hn : n ∈ t.declaredNames) : isReserved n = false := by
  rw [Schema.emission] at h
  split at h
  · cases h
  · rename_i hnone
    have hsorted : t ∈ s.sortedTypes := List.mem_mergeSort.mpr ht
    have hmap := List.findSome?_eq_none_iff.mp hnone t hsorted
    have hfind := List.find?_eq_none.mp (Option.map_eq_none_iff.mp hmap) n hn
    simpa using hfind

/-- A type declares the names of its permissions. -/
theorem ObjectType.name_mem_declaredNames {t : ObjectType} {p : Permission}
    (hp : p ∈ t.permissions) : p.name ∈ t.declaredNames :=
  List.mem_cons_of_mem _ (List.mem_append_right _ (List.mem_map_of_mem hp))

/-- What a lookup finds is declared under its name. -/
theorem Schema.mem_declaredNames {s : Schema} {m : Member}
    (h : s.IsRelation m ∨ s.IsPermission m) : ∃ t ∈ s.types, m.name ∈ t.declaredNames := by
  rcases h with ⟨r, hfind⟩ | ⟨t, p, hfind⟩
  · obtain ⟨t, htype, hrel⟩ := Schema.find_eq_relation_iff.mp hfind
    have hr : r.name = m.name := by simpa using List.find?_some hrel
    refine ⟨t, List.mem_of_find?_eq_some htype, ?_⟩
    refine List.mem_cons_of_mem _ (List.mem_append_left _ (List.mem_map.mpr ⟨r, ?_, hr⟩))
    exact List.mem_of_find?_eq_some hrel
  · obtain ⟨ht, _, hp, hname⟩ := Schema.of_find_permission hfind
    exact ⟨t, ht, hname ▸ ObjectType.name_mem_declaredNames hp⟩

/-- What can be referred to in an emitted schema is not reserved. -/
theorem Schema.name_not_isReserved {s : Schema} {recursive : Bool} {order : List Member}
    (h : s.emission recursive = .ok order) {m : Member}
    (hm : s.IsRelation m ∨ s.IsPermission m) : isReserved m.name = false := by
  obtain ⟨t, ht, hn⟩ := Schema.mem_declaredNames hm
  exact Schema.not_isReserved_of_emission h ht hn

end Rebac
