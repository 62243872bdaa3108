import Mathlib
import Rebac.Proofs.Agreement
import Rebac.Proofs.References

-- `cbv` takes the equations of core functions from the library, hence the whole of it.

/-!
# The order of declarations does not matter

With distinct names a schema says the same in whatever order its types, relations and
permissions are declared.  A lookup finds what has the name, wherever it stands.  And what
the compiler takes in order it takes by name: sorting leaves one list of distinct names
(`mergeSort_eq_of_perm`), so reordered types come out equal once all three levels are
sorted (`Schema.Reorders.sorted_eq`).

The declared names of a type are the one thing that is taken as it stands, when a reserved
one among them is reported.  The type that is reported is the first one by name that has a
reserved name, but which of its names that is depends on the order of declaration.
-/

namespace Rebac

/-! ## Sorting and finding by distinct keys -/

section Keys

variable {α : Type} (key : α → String) {l l' : List α}

/-- A list sorted by a key is in order. -/
theorem pairwise_mergeSort_key (l : List α) :
    (l.mergeSort fun a b => key a ≤ key b).Pairwise fun a b => key a ≤ key b := by
  have hpairwise := @List.pairwise_mergeSort α (fun a b => key a ≤ key b) ?_ ?_ l
  · simpa using hpairwise
  · simpa using fun a b c => String.le_trans
  · simpa using fun a b => String.le_total (key a) (key b)

/-- Sorted by distinct keys, a list does not show its order. -/
theorem mergeSort_eq_of_perm (h : l.Perm l') (hnodup : (l.map key).Nodup) :
    (l.mergeSort fun a b => key a ≤ key b) = l'.mergeSort fun a b => key a ≤ key b := by
  refine List.Perm.eq_of_pairwise ?_ (pairwise_mergeSort_key key l) (pairwise_mergeSort_key key l')
    ((List.mergeSort_perm l _).trans (h.trans (List.mergeSort_perm l' _).symm))
  intro a b ha hb hab hba
  -- Elements of one key are found by it, and there is only one to find.
  have ha' := (find?_eq_some_iff_of_nodup key hnodup).mpr ⟨List.mem_mergeSort.mp ha, rfl⟩
  have hb' := (find?_eq_some_iff_of_nodup key hnodup).mpr
    ⟨h.mem_iff.mpr (List.mem_mergeSort.mp hb), String.le_antisymm hba hab⟩
  exact Option.some.inj (ha'.symm.trans hb')

theorem perm_of_mergeSort_eq {le : α → α → Bool} (h : l.mergeSort le = l'.mergeSort le) :
    l.Perm l' := by
  have hperm := List.mergeSort_perm l le
  rw [h] at hperm
  exact hperm.symm.trans (List.mergeSort_perm l' le)

/-- With distinct keys a lookup finds the same, whatever the order. -/
theorem find?_eq_of_perm (h : l.Perm l') (hnodup : (l.map key).Nodup) (k : String) :
    l.find? (key · == k) = l'.find? (key · == k) := by
  have hnodup' : (l'.map key).Nodup := (h.map key).nodup_iff.mp hnodup
  ext a
  rw [find?_eq_some_iff_of_nodup key hnodup, find?_eq_some_iff_of_nodup key hnodup', h.mem_iff]

end Keys

/-! ## Reordered declarations -/

/-- The type with its relations and permissions declared in another order. -/
structure ObjectType.Reorders (t t' : ObjectType) : Prop where
  name : t.name = t'.name
  relations : t.relations.Perm t'.relations
  permissions : t.permissions.Perm t'.permissions

/-- The schema with its types declared in another order, and inside each type its
relations and permissions. -/
def Schema.Reorders (s s' : Schema) : Prop :=
  ∃ types, s.types.Perm types ∧ List.Forall₂ ObjectType.Reorders types s'.types

/-- The type with its relations and permissions declared by name. -/
def ObjectType.sorted (t : ObjectType) : ObjectType :=
  ⟨t.name, t.sortedRelations, t.sortedPermissions⟩

/-- Reordered types are equal once they are sorted. -/
theorem ObjectType.Reorders.sorted_eq {t t' : ObjectType} (h : t.Reorders t')
    (hrelations : (t.relations.map (·.name)).Nodup)
    (hpermissions : (t.permissions.map (·.name)).Nodup) : t.sorted = t'.sorted := by
  rw [ObjectType.sorted, ObjectType.sorted, h.name]
  congr 1
  · exact mergeSort_eq_of_perm Relation.name h.relations hrelations
  · exact mergeSort_eq_of_perm Permission.name h.permissions hpermissions

/-- Types that are equal once they are sorted are reordered. -/
theorem ObjectType.reorders_of_sorted_eq {t t' : ObjectType} (h : t.sorted = t'.sorted) :
    t.Reorders t' := by
  simp only [ObjectType.sorted, ObjectType.mk.injEq, ObjectType.sortedRelations,
    ObjectType.sortedPermissions] at h
  obtain ⟨hname, hrelations, hpermissions⟩ := h
  refine ⟨hname, ?_, ?_⟩
  · exact perm_of_mergeSort_eq hrelations
  · exact perm_of_mergeSort_eq hpermissions

theorem ObjectType.Reorders.relation?_eq {t t' : ObjectType} (h : t.Reorders t')
    (hnodup : (t.relations.map (·.name)).Nodup) (n : String) :
    t'.relation? n = t.relation? n :=
  (find?_eq_of_perm Relation.name h.relations hnodup n).symm

theorem ObjectType.Reorders.permission?_eq {t t' : ObjectType} (h : t.Reorders t')
    (hnodup : (t.permissions.map (·.name)).Nodup) (n : String) :
    t'.permission? n = t.permission? n :=
  (find?_eq_of_perm Permission.name h.permissions hnodup n).symm

theorem ObjectType.Reorders.declaredNames_perm {t t' : ObjectType} (h : t.Reorders t') :
    t.declaredNames.Perm t'.declaredNames := by
  rw [ObjectType.declaredNames, ObjectType.declaredNames, h.name]
  exact ((h.relations.map _).append (h.permissions.map _)).cons _

section Schemas

variable {s s' : Schema}

theorem Schema.DistinctNames.map_sorted_eq (hs : s.DistinctNames) {types types' : List ObjectType}
    (h : List.Forall₂ ObjectType.Reorders types types') (hmem : ∀ t ∈ types, t ∈ s.types) :
    types.map ObjectType.sorted = types'.map ObjectType.sorted := by
  induction h with
  | nil => rfl
  | @cons t t' ts ts' hreorders _ ih =>
      have ht := hmem t List.mem_cons_self
      have hsorted := hreorders.sorted_eq (hs.relations t ht) (hs.permissions t ht)
      have hrest := ih fun u hu => hmem u (List.mem_cons_of_mem t hu)
      rw [List.map_cons, List.map_cons, hsorted, hrest]

/-- Once the types are sorted inside, only their own order is left. -/
theorem Schema.Reorders.map_sorted_perm (h : s.Reorders s') (hs : s.DistinctNames) :
    (s.types.map ObjectType.sorted).Perm (s'.types.map ObjectType.sorted) := by
  obtain ⟨types, hperm, hforall⟩ := h
  rw [← hs.map_sorted_eq hforall fun t ht => hperm.mem_iff.mpr ht]
  exact hperm.map _

theorem Schema.DistinctNames.nodup_map_sorted (hs : s.DistinctNames) :
    ((s.types.map ObjectType.sorted).map (·.name)).Nodup := by
  rw [List.map_map]
  exact hs.types

/-- Once everything is sorted, the order of declaration is gone. -/
theorem Schema.Reorders.sorted_eq (h : s.Reorders s') (hs : s.DistinctNames) :
    s.sortedTypes.map ObjectType.sorted = s'.sortedTypes.map ObjectType.sorted := by
  -- Sorting the types does not look inside them, so their insides may be sorted first.
  have hsort : ∀ s : Schema, s.sortedTypes.map ObjectType.sorted =
      (s.types.map ObjectType.sorted).mergeSort fun a b => a.name ≤ b.name := by
    intro s
    apply List.map_mergeSort
    intro a _ b _
    rfl
  rw [hsort, hsort]
  exact mergeSort_eq_of_perm ObjectType.name (h.map_sorted_perm hs) hs.nodup_map_sorted

/-- Restrictions are listed by name, so a reordering keeps them. -/
theorem Schema.Reorders.restrictions_eq (h : s.Reorders s') (hs : s.DistinctNames) :
    s'.restrictions = s.restrictions := by
  have hrows : ∀ s : Schema, s.restrictions = (s.sortedTypes.map ObjectType.sorted).flatMap fun t =>
      t.relations.flatMap fun r => r.subjects.map fun u => ⟨t.name, r.name, u.type, u.relation⟩ := by
    intro s
    rw [List.flatMap_map]
    rfl
  rw [hrows, hrows, h.sorted_eq hs]

/-- Permissions are taken by name, so a reordering keeps their order. -/
theorem Schema.Reorders.sortedMembers_eq (h : s.Reorders s') (hs : s.DistinctNames) :
    s'.sortedMembers = s.sortedMembers := by
  have hmembers : ∀ s : Schema, s.sortedMembers =
      (s.sortedTypes.map ObjectType.sorted).flatMap fun t =>
        t.permissions.map fun p => ⟨t.name, p.name⟩ := by
    intro s
    rw [List.flatMap_map]
    rfl
  rw [hmembers, hmembers, h.sorted_eq hs]

/-! ## Lookups -/

/-- A lookup finds the same type up to the order inside it. -/
theorem Schema.Reorders.type?_eq (h : s.Reorders s') (hs : s.DistinctNames) (n : String) :
    (s'.type? n).map ObjectType.sorted = (s.type? n).map ObjectType.sorted := by
  have hfind : ∀ s : Schema, (s.type? n).map ObjectType.sorted =
      (s.types.map ObjectType.sorted).find? (·.name == n) := by
    intro s
    rw [List.find?_map]
    rfl
  rw [hfind, hfind]
  exact (find?_eq_of_perm ObjectType.name (h.map_sorted_perm hs) hs.nodup_map_sorted n).symm

/-- The resolver does not notice a reordering. -/
theorem Schema.Reorders.agrees (h : s.Reorders s') (hs : s.DistinctNames) : s.Agrees s' := by
  intro m
  have htype := h.type?_eq hs m.type
  cases hfind : s.type? m.type with
  | none =>
      have hfind' : s'.type? m.type = none := by simpa [hfind] using htype
      exact .noType (by simp [Schema.find, hfind]) (by simp [Schema.find, hfind'])
  | some t =>
      obtain ⟨t', hfind', hsorted⟩ : ∃ t', s'.type? m.type = some t' ∧ t'.sorted = t.sorted := by
        simpa [hfind] using htype
      have ht := List.mem_of_find?_eq_some hfind
      have hreorders := ObjectType.reorders_of_sorted_eq hsorted.symm
      have hrelation := hreorders.relation?_eq (hs.relations t ht)
      have hpermission := hreorders.permission?_eq (hs.permissions t ht)
      cases hr : t.relation? m.name with
      | some r =>
          have hfound : s.find m = .relation r := by simp [Schema.find, hfind, hr]
          have hfound' : s'.find m = .relation r := by simp [Schema.find, hfind', hrelation, hr]
          exact .relation hfound hfound'
      | none =>
          cases hp : t.permission? m.name with
          | none =>
              exact .noName (by simp [Schema.find, hfind, hr, hp])
                (by simp [Schema.find, hfind', hrelation, hr, hpermission, hp])
          | some p =>
              have hfound : s.find m = .permission t p := by simp [Schema.find, hfind, hr, hp]
              have hfound' : s'.find m = .permission t' p := by
                simp [Schema.find, hfind', hrelation, hr, hpermission, hp]
              refine .permission hfound hfound' ?_
              -- The permission is the same, and its steps see its type by lookups only.
              rw [Expr.steps_congr hreorders.name.symm hrelation]

/-! ## Reserved names -/

/-- Two findings of a reserved name that differ at most in the name. -/
inductive SameReserved (x x' : Option CompileError) : Prop where
  | none : x = none → x' = none → SameReserved x x'
  | some {type n n' : String} : x = some (.reservedName type n) →
      x' = some (.reservedName type n') → SameReserved x x'

/-- A reordered type has a reserved name if the type has one. -/
theorem ObjectType.Reorders.sameReserved {t t' : ObjectType} (h : t.Reorders t') :
    SameReserved ((t.declaredNames.find? isReserved).map (.reservedName t.name))
      ((t'.declaredNames.find? isReserved).map (.reservedName t'.name)) := by
  have hperm := h.declaredNames_perm
  cases hfind : t.declaredNames.find? isReserved with
  | none =>
      have hnone : t'.declaredNames.find? isReserved = none := by
        rw [List.find?_eq_none] at hfind ⊢
        exact fun n hn => hfind n (hperm.mem_iff.mpr hn)
      rw [hnone]
      exact .none rfl rfl
  | some n =>
      have hreserved := List.find?_some hfind
      have hn := hperm.mem_iff.mp (List.mem_of_find?_eq_some hfind)
      obtain ⟨n', hfind'⟩ := Option.isSome_iff_exists.mp (List.find?_isSome.mpr ⟨n, hn, hreserved⟩)
      rw [hfind', h.name]
      exact .some rfl rfl

/-- The first finding is at the same type: the types before it have none in either list. -/
theorem sameReserved_findSome? {types types' : List ObjectType}
    (h : List.Forall₂ ObjectType.Reorders types types') :
    SameReserved
      (types.findSome? fun t => (t.declaredNames.find? isReserved).map (.reservedName t.name))
      (types'.findSome? fun t => (t.declaredNames.find? isReserved).map (.reservedName t.name)) := by
  induction h with
  | nil => exact .none rfl rfl
  | cons hreorders _ ih =>
      rw [List.findSome?_cons, List.findSome?_cons]
      cases hreorders.sameReserved with
      | none hnone hnone' =>
          rw [hnone, hnone']
          exact ih
      | some hsome hsome' =>
          rw [hsome, hsome']
          exact .some rfl rfl

/-- The type that is reported for a reserved name does not depend on the order. -/
theorem Schema.Reorders.sameReserved (h : s.Reorders s') (hs : s.DistinctNames) :
    SameReserved s.reservedName? s'.reservedName? := by
  apply sameReserved_findSome?
  have hsorted := h.sorted_eq hs
  rw [← List.forall₂_eq_eq_eq, List.forall₂_map_left_iff, List.forall₂_map_right_iff] at hsorted
  exact hsorted.imp fun _ _ => ObjectType.reorders_of_sorted_eq

/-! ## Compiling -/

/-- Reordered schemas compile to the same rules in the same order, or fail with the same
error, except that a type with several reserved names may be reported for another one of
them. -/
theorem Schema.compile_of_reorders (hs : s.DistinctNames) (h : s.Reorders s') (recursive : Bool) :
    s'.compile recursive = s.compile recursive ∨
      ∃ type n n', s.compile recursive = .error (.reservedName type n) ∧
        s'.compile recursive = .error (.reservedName type n') := by
  rw [Schema.compile_eq, Schema.compile_eq, Schema.emission, Schema.emission]
  cases h.sameReserved hs with
  | none hnone hnone' =>
      left
      have hrules : s'.ruleBase = s.ruleBase :=
        funext ((h.agrees hs).ruleBase_eq (h.restrictions_eq hs))
      rw [hnone, hnone', hrules, h.sortedMembers_eq hs]
      exact congrArg _ ((h.agrees hs).emission_eq [] s.sortedMembers)
  | some hsome hsome' =>
      right
      rw [hsome, hsome']
      exact ⟨_, _, _, rfl, rfl⟩

end Schemas

example : Schema.compile ⟨[⟨"t", [⟨"a$", []⟩, ⟨"b$", []⟩], []⟩]⟩ = .error (.reservedName "t" "a$") ∧
    Schema.compile ⟨[⟨"t", [⟨"b$", []⟩, ⟨"a$", []⟩], []⟩]⟩ = .error (.reservedName "t" "b$") := by
  cbv

/-- Folders `f` in folders `p` with editors `e`: whoever may read the parent may read, `r`,
and the editors who may read may write, `w`.  Teams `t` have members `m` and guests `g`. -/
def teamFolders : Schema where
  types := [
    ⟨"f", [⟨"e", [⟨"t", some "m"⟩]⟩, ⟨"p", [⟨"f", none⟩]⟩],
      [⟨"r", .union [.name "e", .arrow "p" "r"]⟩, ⟨"w", .intersection [.name "r", .name "e"]⟩]⟩,
    ⟨"t", [⟨"m", [⟨"t", none⟩]⟩], [⟨"g", .name "m"⟩]⟩]

/-- The same folders and teams, declared the other way round. -/
def foldersOfTeams : Schema where
  types := [
    ⟨"t", [⟨"m", [⟨"t", none⟩]⟩], [⟨"g", .name "m"⟩]⟩,
    ⟨"f", [⟨"p", [⟨"f", none⟩]⟩, ⟨"e", [⟨"t", some "m"⟩]⟩],
      [⟨"w", .intersection [.name "r", .name "e"]⟩, ⟨"r", .union [.name "e", .arrow "p" "r"]⟩]⟩]

/-- The rules of folders and teams, in either order of declaration. -/
def teamFolderRules : RuleBase where
  restrictions := [⟨"f", "e", "t", some "m"⟩, ⟨"f", "p", "f", none⟩, ⟨"t", "m", "t", none⟩]
  unary := [⟨"f", "e", "r"⟩, ⟨"t", "m", "g"⟩]
  binary := [⟨"f", "r", "f", "p", "r"⟩, ⟨"f", "r", "f", "e", "w"⟩]

/-- Declared the other way round, folders and teams compile to the same rules, and fail at the
same cycle if recursion is not allowed. -/
theorem foldersOfTeams_compile :
    teamFolders.DistinctNames ∧ teamFolders.Reorders foldersOfTeams ∧
    foldersOfTeams.compile true = .ok teamFolderRules ∧
    foldersOfTeams.compile false = .error (.cycle ⟨"f", "r"⟩ [⟨"f", "r"⟩, ⟨"f", "r"⟩]) := by
  have hs : teamFolders.DistinctNames := ⟨by decide, by decide, by decide⟩
  have h : teamFolders.Reorders foldersOfTeams := by
    refine ⟨teamFolders.types.reverse, (List.reverse_perm _).symm, .cons ?_ (.cons ?_ .nil)⟩
    · exact ⟨rfl, .refl _, .refl _⟩
    · exact ⟨rfl, .swap _ _ _, .swap _ _ _⟩
  have hrules : teamFolders.compile true = .ok teamFolderRules := by cbv
  have hcycle : teamFolders.compile false =
      .error (.cycle ⟨"f", "r"⟩ [⟨"f", "r"⟩, ⟨"f", "r"⟩]) := by cbv
  refine ⟨hs, h, ?_, ?_⟩
  · rcases Schema.compile_of_reorders hs h true with heq | ⟨_, _, _, herror, _⟩
    · exact heq.trans hrules
    · rw [hrules] at herror
      cases herror
  · rcases Schema.compile_of_reorders hs h false with heq | ⟨_, _, _, herror, _⟩
    · exact heq.trans hcycle
    · rw [hcycle] at herror
      cases herror

end Rebac
