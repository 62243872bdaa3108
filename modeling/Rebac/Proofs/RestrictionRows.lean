import Mathlib.Data.List.Perm.Basic
import Rebac.Proofs.Emission
import Rebac.Proofs.Reordering

/-!
# The restriction table as one stable sort

The table is made in two nested passes: types by name, and inside a type relations by name.
`Schema.declaredRows` lists the same rows as they are declared.  No row is lost or added on the
way from the one to the other, whatever names repeat.

A list sorted by a key is determined by the order of its elements of each key
(`eq_of_pairwise_of_filter_eq`), and a stable sort leaves that order alone (`filter_mergeSort`).
Both passes are stable, so the rows of a type and a relation come in order of declaration
(`Schema.filter_restrictions`).  If type names are distinct the rows are also sorted by type and
relation, and the two passes are one stable sort of the declared rows.

The table does not look at permissions, and a compiled schema has it as it is.
-/

namespace Rebac

/-! ## Stable sorting -/

section Sorting

variable {α : Type} {l l' : List α}

/-- A stable sort keeps the order of elements that compare equal. -/
theorem filter_mergeSort {le : α → α → Bool} (trans : ∀ a b c, le a b → le b c → le a c)
    (total : ∀ a b, le a b || le b a) {p : α → Bool} (hp : ∀ a b, p a → p b → le a b) (l : List α) :
    (l.mergeSort le).filter p = l.filter p := by
  have hsorted : (l.filter p).Pairwise fun a b => le a b := by
    refine List.pairwise_of_forall_mem_list fun a ha b hb => ?_
    exact hp a b (List.mem_filter.mp ha).2 (List.mem_filter.mp hb).2
  have hsublist := (List.sublist_mergeSort trans total hsorted List.filter_sublist).filter p
  simp only [List.filter_filter, Bool.and_self] at hsublist
  have hlength := ((List.mergeSort_perm l le).filter p).length_eq
  exact (hsublist.eq_of_length hlength.symm).symm

theorem filter_mergeSort_key (key : α → String) (l : List α) (k : String) :
    (l.mergeSort fun a b => key a ≤ key b).filter (key · = k) = l.filter (key · = k) := by
  apply filter_mergeSort
  · simpa using fun a b c => String.le_trans
  · simpa using fun a b => String.le_total (key a) (key b)
  · intro a b ha hb
    simp only [decide_eq_true_eq] at ha hb ⊢
    exact Std.le_of_eq (ha.trans hb.symm)

section Classes

variable {κ : Type} [DecidableEq κ] (key : α → κ)

theorem mem_iff_of_filter_eq (h : ∀ k, l.filter (key · = k) = l'.filter (key · = k)) (a : α) :
    a ∈ l ↔ a ∈ l' := by
  have hmem : a ∈ l.filter (key · = key a) ↔ a ∈ l'.filter (key · = key a) := by rw [h]
  simpa using hmem

/-- Two sorted lists are equal if they have the same elements of each key in the same order. -/
theorem eq_of_pairwise_of_filter_eq {R : α → α → Prop}
    (antisymm : ∀ a b, R a b → R b a → key a = key b) (hl : l.Pairwise R) (hl' : l'.Pairwise R)
    (h : ∀ k, l.filter (key · = k) = l'.filter (key · = k)) : l = l' := by
  induction l generalizing l' with
  | nil =>
      rw [eq_comm, List.eq_nil_iff_forall_not_mem]
      exact fun a ha => List.not_mem_nil ((mem_iff_of_filter_eq key h a).mpr ha)
  | cons a l ih =>
      have ha := (mem_iff_of_filter_eq key h a).mp List.mem_cons_self
      cases l' with
      | nil => cases ha
      | cons b l' =>
          have hb := (mem_iff_of_filter_eq key h b).mpr List.mem_cons_self
          rw [List.pairwise_cons] at hl hl'
          -- Each head stands in the other list, so neither key comes before the other.
          have hkey : key a = key b := by
            rcases List.mem_cons.mp ha with hab | ha
            · rw [hab]
            rcases List.mem_cons.mp hb with hba | hb
            · rw [hba]
            exact antisymm a b (hl.1 b hb) (hl'.1 a ha)
          have hhead := h (key a)
          rw [List.filter_cons_of_pos (by simp), List.filter_cons_of_pos (by simp [hkey])] at hhead
          obtain rfl := (List.cons.inj hhead).1
          rw [ih hl.2 hl'.2]
          intro k
          have hk := h k
          simp only [List.filter_cons] at hk
          split at hk
          · exact (List.cons.inj hk).2
          · exact hk

/-- The elements with a property that come from a list part by part come from those parts that
can have it. -/
theorem filter_flatMap_filter {β : Type} (f : β → List α) {p : α → Bool} {q : β → Bool}
    (hq : ∀ b, ∀ a ∈ f b, p a → q b) (parts : List β) :
    (parts.flatMap f).filter p = (parts.filter q).flatMap fun b => (f b).filter p := by
  induction parts with
  | nil => rfl
  | cons b parts ih =>
      rw [List.flatMap_cons, List.filter_append, ih, List.filter_cons]
      split
      · rw [List.flatMap_cons]
      · rename_i hb
        have hnone : (f b).filter p = [] := by
          rw [List.filter_eq_nil_iff]
          exact fun a ha hp => hb (hq b a ha hp)
        rw [hnone, List.nil_append]

end Classes

end Sorting

/-! ## Rows in order of declaration -/

/-- The rows of a relation of a type, in order of declaration. -/
def Relation.rows (type : String) (r : Relation) : List Restriction :=
  r.subjects.map fun u => ⟨type, r.name, u.type, u.relation⟩

/-- The restrictions of a schema, one row each, in order of declaration. -/
def Schema.declaredRows (s : Schema) : List Restriction :=
  s.types.flatMap fun t => t.relations.flatMap (Relation.rows t.name)

/-- The row does not come after the other one, by type name and then by relation name. -/
def Restriction.notAfter (a b : Restriction) : Bool :=
  a.resourceType ≤ b.resourceType ∧ (a.resourceType = b.resourceType → a.relation ≤ b.relation)

/-- What the rows are sorted by. -/
def Restriction.member (r : Restriction) : Member := ⟨r.resourceType, r.relation⟩

theorem Relation.member_of_mem_rows {type : String} {r : Relation} {row : Restriction}
    (h : row ∈ r.rows type) : row.member = ⟨type, r.name⟩ := by
  obtain ⟨u, _, rfl⟩ := List.mem_map.mp h
  rfl

theorem Schema.restrictions_eq (s : Schema) : s.restrictions =
    s.sortedTypes.flatMap fun t => t.sortedRelations.flatMap (Relation.rows t.name) := rfl

/-- Sorting loses no row and adds none. -/
theorem Schema.restrictions_perm (s : Schema) : s.restrictions.Perm s.declaredRows := by
  rw [Schema.restrictions_eq, Schema.declaredRows]
  refine (List.mergeSort_perm s.types _).flatMap fun t _ => ?_
  exact (List.mergeSort_perm t.relations _).flatMap_right _

/-! ## The rows of one relation -/

theorem ObjectType.filter_rows (t : ObjectType) (m : Member) (relations : List Relation) :
    (relations.flatMap (Relation.rows t.name)).filter (·.member = m) =
      (relations.filter (·.name = m.name)).flatMap fun r =>
        (r.rows t.name).filter (·.member = m) := by
  refine filter_flatMap_filter _ ?_ relations
  intro r row hrow hm
  simp only [decide_eq_true_eq] at hm ⊢
  rw [← hm, Relation.member_of_mem_rows hrow]

/-- The rows of a type and a relation are in order of declaration. -/
theorem Schema.filter_restrictions (s : Schema) (m : Member) :
    s.restrictions.filter (·.member = m) = s.declaredRows.filter (·.member = m) := by
  have htype : ∀ rows : ObjectType → List Relation, ∀ t : ObjectType,
      ∀ row ∈ (rows t).flatMap (Relation.rows t.name), decide (row.member = m) = true →
        decide (t.name = m.type) = true := by
    intro rows t row hrow hm
    obtain ⟨r, _, hrow⟩ := List.mem_flatMap.mp hrow
    simp only [decide_eq_true_eq] at hm ⊢
    rw [← hm, Relation.member_of_mem_rows hrow]
  rw [Schema.restrictions_eq, Schema.declaredRows,
    filter_flatMap_filter _ (htype ObjectType.sortedRelations),
    filter_flatMap_filter _ (htype ObjectType.relations), Schema.sortedTypes,
    filter_mergeSort_key ObjectType.name]
  simp only [ObjectType.filter_rows, ObjectType.sortedRelations,
    filter_mergeSort_key Relation.name]

/-! ## The order of the rows -/

theorem Restriction.notAfter_iff {a b : Restriction} : a.notAfter b = true ↔
    a.resourceType ≤ b.resourceType ∧
      (a.resourceType = b.resourceType → a.relation ≤ b.relation) := by
  rw [Restriction.notAfter, decide_eq_true_eq]

theorem Restriction.notAfter_trans (a b c : Restriction) (hab : a.notAfter b) (hbc : b.notAfter c) :
    a.notAfter c := by
  rw [Restriction.notAfter_iff] at hab hbc ⊢
  refine ⟨String.le_trans hab.1 hbc.1, fun hac => ?_⟩
  -- The type in the middle is the same one.
  have hba : b.resourceType = a.resourceType :=
    String.le_antisymm (hac ▸ hbc.1) hab.1
  exact String.le_trans (hab.2 hba.symm) (hbc.2 (hba.trans hac))

theorem Restriction.notAfter_total (a b : Restriction) : a.notAfter b || b.notAfter a := by
  rw [Bool.or_eq_true, Restriction.notAfter_iff, Restriction.notAfter_iff]
  by_cases htype : a.resourceType = b.resourceType
  · rw [htype]
    simpa using String.le_total a.relation b.relation
  · exact (String.le_total a.resourceType b.resourceType).imp
      (fun h => ⟨h, fun heq => absurd heq htype⟩) (fun h => ⟨h, fun heq => absurd heq.symm htype⟩)

theorem Restriction.member_eq_of_notAfter (a b : Restriction) (hab : a.notAfter b)
    (hba : b.notAfter a) : a.member = b.member := by
  rw [Restriction.notAfter_iff] at hab hba
  have htype := String.le_antisymm hab.1 hba.1
  rw [Restriction.member, Restriction.member, htype,
    String.le_antisymm (hab.2 htype) (hba.2 htype.symm)]

/-- Inside a type the rows are sorted by relation. -/
theorem ObjectType.pairwise_rows (t : ObjectType) :
    (t.sortedRelations.flatMap (Relation.rows t.name)).Pairwise fun a b => a.notAfter b := by
  have hrows : ∀ {r r' : Relation} {a b : Restriction}, a ∈ r.rows t.name → b ∈ r'.rows t.name →
      r.name ≤ r'.name → a.notAfter b := by
    intro r r' a b ha hb hle
    have ha := Relation.member_of_mem_rows ha
    have hb := Relation.member_of_mem_rows hb
    simp only [Restriction.member, Member.mk.injEq] at ha hb
    rw [Restriction.notAfter_iff, ha.1, ha.2, hb.1, hb.2]
    exact ⟨String.le_refl _, fun _ => hle⟩
  rw [List.pairwise_flatMap]
  constructor
  · intro r _
    exact List.pairwise_of_forall_mem_list fun a ha b hb => hrows ha hb (String.le_refl _)
  · refine (pairwise_mergeSort_key Relation.name t.relations).imp ?_
    exact fun hle a ha b hb => hrows ha hb hle

/-- With distinct type names the rows are sorted by type and relation. -/
theorem Schema.pairwise_restrictions {s : Schema} (h : (s.types.map (·.name)).Nodup) :
    s.restrictions.Pairwise fun a b => a.notAfter b := by
  have hnodup : (s.sortedTypes.map (·.name)).Nodup :=
    ((List.mergeSort_perm s.types _).map _).nodup_iff.mpr h
  have hsorted := (pairwise_mergeSort_key ObjectType.name s.types).and (List.pairwise_map.mp hnodup)
  rw [Schema.restrictions_eq, List.pairwise_flatMap]
  refine ⟨fun t _ => t.pairwise_rows, hsorted.imp ?_⟩
  intro t t' hle a ha b hb
  obtain ⟨r, _, ha⟩ := List.mem_flatMap.mp ha
  obtain ⟨r', _, hb⟩ := List.mem_flatMap.mp hb
  have ha := Relation.member_of_mem_rows ha
  have hb := Relation.member_of_mem_rows hb
  simp only [Restriction.member, Member.mk.injEq] at ha hb
  rw [Restriction.notAfter_iff, ha.1, hb.1]
  exact ⟨hle.1, fun heq => absurd heq hle.2⟩

/-- With distinct type names, sorting in two passes is sorting the declared rows once. -/
theorem Schema.restrictions_eq_mergeSort {s : Schema} (h : (s.types.map (·.name)).Nodup) :
    s.restrictions = s.declaredRows.mergeSort Restriction.notAfter := by
  refine eq_of_pairwise_of_filter_eq Restriction.member Restriction.member_eq_of_notAfter
    (Schema.pairwise_restrictions h)
    (List.pairwise_mergeSort Restriction.notAfter_trans Restriction.notAfter_total _) ?_
  intro m
  rw [Schema.filter_restrictions]
  symm
  apply filter_mergeSort Restriction.notAfter_trans Restriction.notAfter_total
  intro a b ha hb
  simp only [decide_eq_true_eq] at ha hb
  have hmember := ha.trans hb.symm
  simp only [Restriction.member, Member.mk.injEq] at hmember
  rw [Restriction.notAfter_iff, hmember.1, hmember.2]
  exact ⟨String.le_refl _, fun _ => String.le_refl _⟩

/-! ## Compiled schemas -/

/-- The type without its permissions. -/
def ObjectType.withoutPermissions (t : ObjectType) : ObjectType := { t with permissions := [] }

/-- The table does not depend on permissions. -/
theorem Schema.restrictions_withoutPermissions (s : Schema) :
    s.restrictions = Schema.restrictions ⟨s.types.map ObjectType.withoutPermissions⟩ := by
  have hsort : (s.types.map ObjectType.withoutPermissions).mergeSort (fun a b => a.name ≤ b.name) =
      s.sortedTypes.map ObjectType.withoutPermissions := by
    symm
    apply List.map_mergeSort
    intro a _ b _
    rfl
  rw [Schema.restrictions, Schema.restrictions, Schema.sortedTypes, Schema.sortedTypes, hsort,
    List.flatMap_map]
  rfl

theorem Schema.restrictions_of_compile {s : Schema} {recursive : Bool} {b : RuleBase}
    (h : s.compile recursive = .ok b) : b.restrictions = s.restrictions := by
  obtain ⟨order, _, rfl⟩ := Schema.emission_of_compile h
  rfl

/-- The restriction table has one row for each restriction that is declared, and no other row.  If
type names are distinct it is the stable sort of the declared rows by type and relation.  Every
schema that declares the same relations, with whatever permissions, has this table when it is
compiled. -/
theorem Schema.restrictions_project (s : Schema) :
    s.restrictions.Perm s.declaredRows ∧
      ((s.types.map (·.name)).Nodup →
        s.restrictions = s.declaredRows.mergeSort Restriction.notAfter) ∧
      ∀ (s' : Schema) (recursive : Bool) (b : RuleBase),
        s'.types.map ObjectType.withoutPermissions = s.types.map ObjectType.withoutPermissions →
        s'.compile recursive = .ok b → b.restrictions = s.restrictions := by
  refine ⟨s.restrictions_perm, Schema.restrictions_eq_mergeSort, ?_⟩
  intro s' recursive b hsame hok
  rw [Schema.restrictions_of_compile hok, s'.restrictions_withoutPermissions, hsame,
    ← s.restrictions_withoutPermissions]

/-- Two types declared out of order, with a relation that is declared twice. -/
def repeatedRelations (permissions : List Permission) : Schema where
  types := [⟨"u", [⟨"m", [⟨"u", none⟩, ⟨"g", some "m"⟩]⟩, ⟨"a", [⟨"u", none⟩]⟩,
    ⟨"m", [⟨"g", none⟩]⟩], permissions⟩, ⟨"g", [⟨"m", [⟨"u", none⟩]⟩], []⟩]

/-- The repeated relation keeps its rows in order of declaration, with a permission and without. -/
theorem repeatedRelations_restrictions :
    ((repeatedRelations []).types.map (·.name)).Nodup ∧
      (repeatedRelations [⟨"p", .name "m"⟩]).compile = .ok
        ⟨[⟨"g", "m", "u", none⟩, ⟨"u", "a", "u", none⟩, ⟨"u", "m", "u", none⟩,
          ⟨"u", "m", "g", some "m"⟩, ⟨"u", "m", "g", none⟩], [⟨"u", "m", "p"⟩], []⟩ ∧
      [⟨"g", "m", "u", none⟩, ⟨"u", "a", "u", none⟩, ⟨"u", "m", "u", none⟩,
          ⟨"u", "m", "g", some "m"⟩, ⟨"u", "m", "g", none⟩] = (repeatedRelations []).restrictions ∧
      (repeatedRelations []).restrictions =
        (repeatedRelations []).declaredRows.mergeSort Restriction.notAfter := by
  have hnodup : ((repeatedRelations []).types.map (·.name)).Nodup := by decide
  have hok : (repeatedRelations [⟨"p", .name "m"⟩]).compile = .ok
      ⟨[⟨"g", "m", "u", none⟩, ⟨"u", "a", "u", none⟩, ⟨"u", "m", "u", none⟩,
        ⟨"u", "m", "g", some "m"⟩, ⟨"u", "m", "g", none⟩], [⟨"u", "m", "p"⟩], []⟩ := by cbv
  obtain ⟨_, hsorted, hcompiled⟩ := (repeatedRelations []).restrictions_project
  have hrows := hcompiled (repeatedRelations [⟨"p", .name "m"⟩]) false _ rfl hok
  exact ⟨hnodup, hok, hrows, hsorted hnodup⟩

end Rebac
