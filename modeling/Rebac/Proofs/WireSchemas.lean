import Mathlib.Data.List.Nodup
import Mathlib.Data.String.Basic
import Rebac.Proofs.Rendering
import Rebac.Proofs.Reordering
import Rebac.Wire.Reading

/-!
# What a wire document declares

The entries of a document are declarations, in the order of the text.  `Document.Declares` says
that they are those of a schema, one for one and in any order.

Reading a document keeps of each key the last entry, and sorts what it keeps by key
(`table_eq_mergeSort`).  So a document whose keys are distinct gives the schema that it declares,
sorted (`Document.schema_of_declares`).  In general it gives what its last entries declare, and
this is all of it only if no key is repeated (`Document.latest_declares`,
`Document.declares_iff_distinctKeys`).
-/

namespace Rebac.Wire

/-! ## Tables -/

section Tables

variable {α : Type}

/-- Inserting an entry replaces what stands under its key. -/
theorem mem_insertEntry {k : String} {x : α} {t : List (String × α)}
    (ht : t.Pairwise fun a b => a.1 < b.1) {e : String × α} :
    e ∈ insertEntry k x t ↔ e = (k, x) ∨ (e ∈ t ∧ e.1 ≠ k) := by
  induction t with
  | nil => simp [insertEntry]
  | cons a t ih =>
      obtain ⟨ha, ht⟩ := List.pairwise_cons.mp ht
      rw [insertEntry]
      split
      · rename_i hlt
        -- The key is below the first one, so below all of them.
        have hne : ∀ e ∈ a :: t, e.1 ≠ k := by
          intro e he
          rcases List.mem_cons.mp he with rfl | he
          · exact ne_of_gt hlt
          · exact ne_of_gt (hlt.trans (ha e he))
        grind
      · split
        · rename_i _ heq
          have hne : ∀ e ∈ t, e.1 ≠ k := fun e he => heq ▸ ne_of_gt (ha e he)
          grind
        · grind

/-- A table stays sorted by key. -/
theorem pairwise_insertEntry {k : String} {x : α} {t : List (String × α)}
    (ht : t.Pairwise fun a b => a.1 < b.1) :
    (insertEntry k x t).Pairwise fun a b => a.1 < b.1 := by
  induction t with
  | nil => simp [insertEntry]
  | cons a t ih =>
      obtain ⟨ha, htail⟩ := List.pairwise_cons.mp ht
      rw [insertEntry]
      split
      · rename_i hlt
        refine List.pairwise_cons.mpr ⟨fun e he => ?_, ht⟩
        rcases List.mem_cons.mp he with rfl | he
        · exact hlt
        · exact hlt.trans (ha e he)
      · rename_i hnlt
        split
        · rename_i heq
          exact List.pairwise_cons.mpr ⟨fun e he => heq ▸ ha e he, htail⟩
        · rename_i hne
          refine List.pairwise_cons.mpr ⟨fun e he => ?_, ih htail⟩
          rcases (mem_insertEntry htail).mp he with rfl | ⟨he, _⟩
          · exact lt_of_le_of_ne (not_lt.mp hnlt) (Ne.symm hne)
          · exact ha e he

/-- The entries that no later entry of their key replaces. -/
def latest : List (String × α) → List (String × α)
  | [] => []
  | e :: es => if e.1 ∈ es.map Prod.fst then latest es else e :: latest es

theorem latest_sublist (es : List (String × α)) : (latest es).Sublist es := by
  induction es with
  | nil => exact .slnil
  | cons e es ih =>
      rw [latest]
      split
      · exact ih.cons e
      · exact ih.cons_cons e

/-- The last entries have distinct keys. -/
theorem nodup_latest (es : List (String × α)) : ((latest es).map Prod.fst).Nodup := by
  induction es with
  | nil => exact .nil
  | cons e es ih =>
      rw [latest]
      split
      · exact ih
      · rename_i hnew
        exact List.nodup_cons.mpr ⟨fun he => hnew (((latest_sublist es).map _).subset he), ih⟩

/-- If no key is repeated, every entry is the last of its key. -/
theorem latest_eq_self {es : List (String × α)} (h : (es.map Prod.fst).Nodup) : latest es = es := by
  induction es with
  | nil => rfl
  | cons e es ih =>
      obtain ⟨hnew, hes⟩ := List.nodup_cons.mp h
      rw [latest, if_neg hnew, ih hes]

/-- What is in a table after some entries: the last of each key, and what was there before under
other keys. -/
theorem mem_foldl_insertEntry {es t : List (String × α)} (ht : t.Pairwise fun a b => a.1 < b.1)
    {e : String × α} : e ∈ es.foldl (fun t e => insertEntry e.1 e.2 t) t ↔
      e ∈ latest es ∨ (e ∈ t ∧ e.1 ∉ es.map Prod.fst) := by
  induction es generalizing t with
  | nil => simp [latest]
  | cons a es ih =>
      rw [List.foldl_cons, ih (pairwise_insertEntry ht), mem_insertEntry ht, latest]
      split <;> grind

theorem pairwise_foldl_insertEntry {es t : List (String × α)}
    (ht : t.Pairwise fun a b => a.1 < b.1) :
    (es.foldl (fun t e => insertEntry e.1 e.2 t) t).Pairwise fun a b => a.1 < b.1 := by
  induction es generalizing t with
  | nil => exact ht
  | cons a es ih => exact ih (pairwise_insertEntry ht)

/-- A table is the last entries of all keys, sorted by key. -/
theorem table_eq_mergeSort (es : List (String × α)) :
    table es = (latest es).mergeSort fun a b => a.1 ≤ b.1 := by
  have hsorted : (table es).Pairwise fun a b => a.1 < b.1 :=
    pairwise_foldl_insertEntry List.Pairwise.nil
  have hnodup : (table es).Nodup := hsorted.imp fun h heq => (heq ▸ h).ne rfl
  have hperm : (latest es).Perm (table es) := by
    rw [List.perm_ext_iff_of_nodup (nodup_latest es).of_map hnodup]
    intro e
    rw [table, mem_foldl_insertEntry .nil]
    simp
  rw [mergeSort_eq_of_perm Prod.fst hperm (nodup_latest es), List.mergeSort_of_pairwise]
  exact hsorted.imp fun h => by simpa using h.le

theorem nodup_table (es : List (String × α)) : ((table es).map Prod.fst).Nodup := by
  rw [table_eq_mergeSort]
  exact ((List.mergeSort_perm _ _).map _).nodup_iff.mpr (nodup_latest es)

theorem table_perm (es : List (String × α)) : (table es).Perm (latest es) := by
  rw [table_eq_mergeSort]
  exact List.mergeSort_perm _ _

end Tables

/-! ## Traversals -/

theorem mapM_eq_ok_iff {ε α β : Type} {f : α → Except ε β} {l : List α} {l' : List β} :
    l.mapM f = .ok l' ↔ l.map f = l'.map .ok := by
  induction l generalizing l' with
  | nil => cases l' <;> simp [pure, Except.pure]
  | cons a l ih =>
      rw [List.mapM_cons, Language.bind_eq_ok_iff]
      simp only [Language.bind_eq_ok_iff, ih]
      cases l' <;> simp [pure, Except.pure]

theorem mapM_eq_some_iff {α β : Type} {f : α → Option β} {l : List α} {l' : List β} :
    l.mapM f = some l' ↔ l.map f = l'.map some := by
  induction l generalizing l' with
  | nil => cases l' <;> simp
  | cons a l ih => cases l' <;> simp [List.mapM_cons, Option.bind_eq_some_iff, ih]

/-- What is written item by item is read item by item. -/
theorem mapM_map_eq_some {α β : Type} {f : α → β} {g : β → Option α} {l : List α}
    (h : ∀ a ∈ l, g (f a) = some a) : (l.map f).mapM g = some l := by
  rw [mapM_eq_some_iff, List.map_map]
  exact List.map_congr_left h

theorem map_eq_map_iff {α β γ : Type} {f : α → γ} {c : β → γ} {g : β → α} {P : β → Prop}
    (h : ∀ a b, f a = c b ↔ a = g b ∧ P b) {l : List α} {l' : List β} :
    l.map f = l'.map c ↔ l = l'.map g ∧ ∀ b ∈ l', P b := by
  induction l generalizing l' with
  | nil => cases l' <;> simp
  | cons a l ih =>
      cases l' with
      | nil => simp
      | cons b l' =>
          simp only [List.map_cons, List.cons.injEq, ih, h, List.forall_mem_cons]
          tauto

theorem map_eq_map_of_forall₂ {α β γ : Type} {R : α → β → Prop} (f : α → γ) (g : β → γ)
    (hkey : ∀ a b, R a b → f a = g b) {l : List α} {l' : List β} (h : List.Forall₂ R l l') :
    l.map f = l'.map g := by
  rw [← List.forall₂_eq_eq_eq, List.forall₂_map_left_iff, List.forall₂_map_right_iff]
  exact h.imp hkey

/-- Lists that belong together element by element still do when both are sorted by equal keys. -/
theorem forall₂_mergeSort {α β : Type} {R : α → β → Prop} (key : α → String) (key' : β → String)
    (hkey : ∀ a b, R a b → key a = key' b) {l : List α} {l' : List β} (h : List.Forall₂ R l l') :
    List.Forall₂ R (l.mergeSort fun a b => key a ≤ key b)
      (l'.mergeSort fun a b => key' a ≤ key' b) := by
  have hR : ∀ x ∈ l.zip l', R x.1 x.2 := fun x hx => List.forall₂_zip h hx
  -- Both sorts are the sort of the pairs.
  have hleft : (l.mergeSort fun a b => key a ≤ key b) =
      ((l.zip l').mergeSort fun x y => key x.1 ≤ key y.1).map Prod.fst := by
    rw [List.map_mergeSort (s := fun a b => key a ≤ key b) fun x _ y _ => rfl,
      List.map_fst_zip h.length_eq.le]
  have hright : (l'.mergeSort fun a b => key' a ≤ key' b) =
      ((l.zip l').mergeSort fun x y => key x.1 ≤ key y.1).map Prod.snd := by
    rw [List.map_mergeSort (s := fun a b => key' a ≤ key' b) fun x hx y hy => by
        rw [hkey _ _ (hR x hx), hkey _ _ (hR y hy)],
      List.map_snd_zip h.length_eq.ge]
  rw [hleft, hright, List.forall₂_map_left_iff, List.forall₂_map_right_iff, List.forall₂_same]
  exact fun x hx => hR x (List.mem_mergeSort.mp hx)

/-! ## Entries and declarations -/

/-- A subject as an entry.  Without a relation, the relation of the entry is empty. -/
def SubjectEntry.ofSubject (u : Subject) : SubjectEntry := ⟨u.type, u.relation.getD ""⟩

end Rebac.Wire

namespace Rebac

/-- The subjects have a type, and a relation that is given is not empty. -/
def Relation.SubjectsNamed (r : Relation) : Prop :=
  ∀ u ∈ r.subjects, u.type ≠ "" ∧ u.relation ≠ some ""

/-- A relation as an entry, with its subjects in order. -/
def Relation.entry (r : Relation) : String × List Wire.SubjectEntry :=
  (r.name, r.subjects.map Wire.SubjectEntry.ofSubject)

/-- A permission as an entry. -/
def Permission.entry (p : Permission) : String × Expr := (p.name, p.expr)

/-- In every relation of every type the subjects are named. -/
def Schema.SubjectsNamed (s : Schema) : Prop := ∀ t ∈ s.types, ∀ r ∈ t.relations, r.SubjectsNamed

/-- The schema with its types, relations and permissions declared by name. -/
def Schema.sorted (s : Schema) : Schema := ⟨s.sortedTypes.map ObjectType.sorted⟩

end Rebac

namespace Rebac.Wire

/-- The entry defines the type under its name, with its relations and permissions in any order. -/
structure TypeEntry.Declares (e : String × TypeEntry) (t : ObjectType) : Prop where
  key : e.1 = t.name
  /-- A name that is given is the key. -/
  name : e.2.name = "" ∨ e.2.name = t.name
  relations : e.2.relations.Perm (t.relations.map Relation.entry)
  permissions : e.2.permissions.Perm (t.permissions.map Permission.entry)

/-- The entries of the document are the types of the schema, one for one and in any order. -/
def Document.Declares (d : Document) (s : Schema) : Prop :=
  ∃ types, types.Perm d.types ∧ List.Forall₂ TypeEntry.Declares types s.types

theorem SubjectEntry.subject?_eq_some_iff {e : SubjectEntry} {u : Subject} :
    e.subject? = some u ↔ e = .ofSubject u ∧ u.type ≠ "" ∧ u.relation ≠ some "" := by
  rcases e with ⟨type, relation⟩
  rcases u with ⟨type', relation'⟩
  cases relation' <;> grind [SubjectEntry.subject?, SubjectEntry.ofSubject]

/-- An entry is read as the relation that it is the entry of, if the subjects are named. -/
theorem relationOf_eq_ok_iff {type : String} {e : String × List SubjectEntry} {r : Relation} :
    relationOf type e = .ok r ↔ e = r.entry ∧ r.SubjectsNamed := by
  rcases e with ⟨name, es⟩
  rcases r with ⟨name', us⟩
  have hsubjects : es.mapM SubjectEntry.subject? = some us ↔
      es = us.map .ofSubject ∧ ∀ u ∈ us, u.type ≠ "" ∧ u.relation ≠ some "" := by
    rw [mapM_eq_some_iff, map_eq_map_iff fun _ _ => SubjectEntry.subject?_eq_some_iff]
  calc relationOf type (name, es) = .ok ⟨name', us⟩
      ↔ name = name' ∧ es.mapM SubjectEntry.subject? = some us := by
        rw [relationOf]
        split <;> simp_all
    _ ↔ (name, es) = Relation.entry ⟨name', us⟩ ∧ Relation.SubjectsNamed ⟨name', us⟩ := by
        rw [hsubjects, Relation.entry, Prod.mk.injEq, and_assoc]
        rfl

/-- An entry is read as the type that its tables list. -/
theorem typeOf_eq_ok_iff {e : String × TypeEntry} {t : ObjectType} : typeOf e = .ok t ↔
    e.1 = t.name ∧ (e.2.name = "" ∨ e.2.name = t.name) ∧
      table e.2.relations = t.relations.map Relation.entry ∧
      (∀ r ∈ t.relations, r.SubjectsNamed) ∧
      table e.2.permissions = t.permissions.map Permission.entry := by
  rcases e with ⟨key, x⟩
  rcases t with ⟨name, relations, permissions⟩
  have hrelations : (table x.relations).mapM (relationOf key) = .ok relations ↔
      table x.relations = relations.map Relation.entry ∧ ∀ r ∈ relations, r.SubjectsNamed := by
    rw [mapM_eq_ok_iff, map_eq_map_iff fun _ _ => relationOf_eq_ok_iff]
  have hpermissions : ((table x.permissions).map fun e => Permission.mk e.1 e.2) = permissions ↔
      table x.permissions = permissions.map Permission.entry := by
    constructor
    · rintro rfl
      simp [Permission.entry, Function.comp_def]
    · intro h
      simp [h, Permission.entry, Function.comp_def]
  rw [typeOf]
  split
  · rename_i hname
    simp only [reduceCtorEq, false_iff]
    grind
  · rename_i hname
    rw [Language.bind_eq_ok_iff]
    change (∃ rs, _ ∧ Except.ok (ObjectType.mk key rs
      ((table x.permissions).map fun e => Permission.mk e.1 e.2)) = _) ↔ _
    simp only [Except.ok.injEq, ObjectType.mk.injEq, hpermissions]
    grind

theorem schema_eq_ok_iff {d : Document} {s : Schema} :
    d.schema = .ok s ↔ (table d.types).map typeOf = s.types.map .ok := by
  rcases s with ⟨types⟩
  rw [Document.schema, Language.bind_eq_ok_iff]
  simp [mapM_eq_ok_iff]

/-! ## Documents with distinct keys -/

/-- Among distinct keys a table is the sorted declarations. -/
theorem table_eq_map_mergeSort {α β : Type} {entry : β → String × α} {key : β → String}
    (hkey : ∀ b, (entry b).1 = key b) {es : List (String × α)} {l : List β}
    (h : es.Perm (l.map entry)) (hnodup : (l.map key).Nodup) :
    table es = (l.mergeSort fun a b => key a ≤ key b).map entry := by
  have hkeys : (l.map entry).map Prod.fst = l.map key := by
    simp only [List.map_map, Function.comp_def, hkey]
  have hes : (es.map Prod.fst).Nodup := by
    rw [(h.map Prod.fst).nodup_iff, hkeys]
    exact hnodup
  rw [table_eq_mergeSort, latest_eq_self hes, mergeSort_eq_of_perm Prod.fst h hes]
  refine (List.map_mergeSort fun a _ b _ => ?_).symm
  rw [hkey, hkey]

/-- An entry that declares a type is read as the type, sorted. -/
theorem TypeEntry.Declares.typeOf_eq {e : String × TypeEntry} {t : ObjectType}
    (h : TypeEntry.Declares e t) (hrelations : (t.relations.map (·.name)).Nodup)
    (hpermissions : (t.permissions.map (·.name)).Nodup)
    (hnamed : ∀ r ∈ t.relations, r.SubjectsNamed) : typeOf e = .ok t.sorted := by
  refine typeOf_eq_ok_iff.mpr ⟨h.key, h.name, ?_, ?_, ?_⟩
  · exact table_eq_map_mergeSort (fun _ => rfl) h.relations hrelations
  · intro r hr
    exact hnamed r (List.mem_mergeSort.mp hr)
  · exact table_eq_map_mergeSort (fun _ => rfl) h.permissions hpermissions

/-- A document gives the schema that it declares, sorted, if names are distinct. -/
theorem Document.schema_of_declares {d : Document} {s : Schema} (h : d.Declares s)
    (hs : s.DistinctNames) (hnamed : s.SubjectsNamed) : d.schema = .ok s.sorted := by
  obtain ⟨types, hperm, htypes⟩ := h
  have hkeys : types.map Prod.fst = s.types.map (·.name) :=
    map_eq_map_of_forall₂ Prod.fst ObjectType.name (fun _ _ h => h.key) htypes
  have hnodup : (d.types.map Prod.fst).Nodup := by
    rw [← (hperm.map Prod.fst).nodup_iff, hkeys]
    exact hs.types
  have htable : table d.types = types.mergeSort fun a b => a.1 ≤ b.1 := by
    rw [table_eq_mergeSort, latest_eq_self hnodup]
    exact mergeSort_eq_of_perm Prod.fst hperm.symm hnodup
  have hsorted := forall₂_mergeSort Prod.fst ObjectType.name (fun _ _ h => h.key) htypes
  rw [schema_eq_ok_iff, htable, Schema.sorted, List.map_map, ← List.forall₂_eq_eq_eq,
    List.forall₂_map_left_iff, List.forall₂_map_right_iff, List.forall₂_iff_zip]
  refine ⟨hsorted.length_eq, fun {e t} hzip => ?_⟩
  have ht : t ∈ s.types := List.mem_mergeSort.mp (List.of_mem_zip hzip).2
  exact (List.forall₂_zip hsorted hzip).typeOf_eq (hs.relations t ht) (hs.permissions t ht)
    (hnamed t ht)

/-! ## Documents with repeated keys -/

/-- The entry without relations and permissions that later ones replace. -/
def TypeEntry.latest (e : TypeEntry) : TypeEntry :=
  ⟨e.name, Wire.latest e.relations, Wire.latest e.permissions⟩

/-- The document without entries that later ones replace. -/
def Document.latest (d : Document) : Document :=
  ⟨(Wire.latest d.types).map fun e => (e.1, e.2.latest)⟩

/-- No key is repeated, neither among the types nor among the relations or the permissions of a
type. -/
structure Document.DistinctKeys (d : Document) : Prop where
  types : (d.types.map Prod.fst).Nodup
  relations : ∀ e ∈ d.types, (e.2.relations.map Prod.fst).Nodup
  permissions : ∀ e ∈ d.types, (e.2.permissions.map Prod.fst).Nodup

theorem Document.DistinctKeys.latest_eq {d : Document} (h : d.DistinctKeys) : d.latest = d := by
  have htypes : (Wire.latest d.types).map (fun e => (e.1, e.2.latest)) = d.types := by
    rw [latest_eq_self h.types]
    conv_rhs => rw [← List.map_id d.types]
    refine List.map_congr_left fun e he => ?_
    rw [TypeEntry.latest, latest_eq_self (h.relations e he), latest_eq_self (h.permissions e he)]
    rfl
  rw [Document.latest, htypes]

section Accepted

variable {d : Document} {s : Schema}

/-- The types of a schema that is read are those of the table, in its order. -/
theorem forall₂_typeOf (h : d.schema = .ok s) :
    List.Forall₂ (fun e t => typeOf e = .ok t) (table d.types) s.types := by
  have hmap := schema_eq_ok_iff.mp h
  rwa [← List.forall₂_eq_eq_eq, List.forall₂_map_left_iff, List.forall₂_map_right_iff] at hmap

theorem typeOf_of_mem (h : d.schema = .ok s) {t : ObjectType} (ht : t ∈ s.types) :
    ∃ e ∈ table d.types, typeOf e = .ok t := by
  have hok : .ok t ∈ (table d.types).map typeOf := by
    rw [schema_eq_ok_iff.mp h]
    exact List.mem_map_of_mem ht
  simpa using hok

/-- A schema that is read has distinct names, since tables have distinct keys. -/
theorem distinctNames_of_schema (h : d.schema = .ok s) : s.DistinctNames := by
  have hnames : ∀ {α β : Type} {entry : β → String × α} {es : List (String × α)} {l : List β},
      table es = l.map entry → (l.map fun b => (entry b).1).Nodup := by
    intro α β entry es l heq
    have hnodup := nodup_table es
    rwa [heq, List.map_map] at hnodup
  constructor
  · have hkeys : (table d.types).map Prod.fst = s.types.map (·.name) :=
      map_eq_map_of_forall₂ Prod.fst ObjectType.name
        (fun _ _ hok => (typeOf_eq_ok_iff.mp hok).1) (forall₂_typeOf h)
    exact hkeys ▸ nodup_table d.types
  · intro t ht
    obtain ⟨e, _, hok⟩ := typeOf_of_mem h ht
    exact hnames (typeOf_eq_ok_iff.mp hok).2.2.1
  · intro t ht
    obtain ⟨e, _, hok⟩ := typeOf_of_mem h ht
    exact hnames (typeOf_eq_ok_iff.mp hok).2.2.2.2

theorem subjectsNamed_of_schema (h : d.schema = .ok s) : s.SubjectsNamed := by
  intro t ht
  obtain ⟨e, _, hok⟩ := typeOf_of_mem h ht
  exact (typeOf_eq_ok_iff.mp hok).2.2.2.1

/-- What is read is what the last entries declare. -/
theorem Document.latest_declares (h : d.schema = .ok s) : d.latest.Declares s := by
  refine ⟨(table d.types).map fun e => (e.1, e.2.latest), (table_perm d.types).map _, ?_⟩
  rw [List.forall₂_map_left_iff]
  refine (forall₂_typeOf h).imp fun e t hok => ?_
  obtain ⟨hkey, hname, hrelations, _, hpermissions⟩ := typeOf_eq_ok_iff.mp hok
  refine ⟨hkey, hname, ?_, ?_⟩
  · exact hrelations ▸ (table_perm e.2.relations).symm
  · exact hpermissions ▸ (table_perm e.2.permissions).symm

/-- Nothing is lost if and only if no key is repeated. -/
theorem Document.declares_iff_distinctKeys (h : d.schema = .ok s) :
    d.Declares s ↔ d.DistinctKeys := by
  constructor
  · rintro ⟨types, hperm, htypes⟩
    have hs := distinctNames_of_schema h
    have hkeys : types.map Prod.fst = s.types.map (·.name) :=
      map_eq_map_of_forall₂ Prod.fst ObjectType.name (fun _ _ h => h.key) htypes
    have hdeclares : ∀ e ∈ d.types, ∃ t ∈ s.types, TypeEntry.Declares e t := by
      intro e he
      obtain ⟨i, hi, rfl⟩ := List.mem_iff_getElem.mp (hperm.mem_iff.mpr he)
      have hi' : i < s.types.length := htypes.length_eq ▸ hi
      exact ⟨s.types[i], List.getElem_mem hi', htypes.get hi hi'⟩
    refine ⟨?_, fun e he => ?_, fun e he => ?_⟩
    · rw [← (hperm.map Prod.fst).nodup_iff, hkeys]
      exact hs.types
    · obtain ⟨t, ht, hdecl⟩ := hdeclares e he
      rw [(hdecl.relations.map Prod.fst).nodup_iff, List.map_map]
      exact hs.relations t ht
    · obtain ⟨t, ht, hdecl⟩ := hdeclares e he
      rw [(hdecl.permissions.map Prod.fst).nodup_iff, List.map_map]
      exact hs.permissions t ht
  · intro hdistinct
    have hlatest := Document.latest_declares h
    rwa [hdistinct.latest_eq] at hlatest

end Accepted

end Rebac.Wire
