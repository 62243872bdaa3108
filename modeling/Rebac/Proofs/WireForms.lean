import Rebac.Proofs.JsonRecords
import Rebac.Wire.Document

/-!
# Wire forms

Which JSON values are a wire document, said about trees and not about texts.  Each part of a
document has its form, and the reader of the part reads exactly the trees of that form.  So a text
is read as a document if and only if it is the text of one of its forms (`document_reads`), up to
the level to which values may nest.

The form of an expression is an object with one member.  `IsVariant` says which name and which
content it has.
-/

namespace Rebac.Wire

open Json (Tree IsString IsList IsMap IsChoice Filled Slot Fills Reader Record)

/-! ## Forms -/

/-- The tree is the object of a set operation, whose operands are an array or left out. -/
def IsSet (op : String) (absent : Prop) (items : List Tree → Prop) : Tree → Prop :=
  IsChoice fun name v => name = op ∧ ∃ o, v.Gives ["operands"] [o] ∧
    Filled absent (fun w => ∃ vs, w = .array vs ∧ items vs) o

mutual

/-- The expression is written as the variant of this name with this content. -/
def IsVariant : Expr → String → Tree → Prop
  | .name source, variant, v => variant = "unaryExpression" ∧
      ∃ o, v.Gives ["sourceRelation"] [o] ∧ Filled False (IsString source) o
  | .arrow base target, variant, v => variant = "hierarchicalExpression" ∧
      ∃ o o', v.Gives ["base", "target"] [o, o'] ∧ Filled False (IsString base) o ∧
        Filled False (IsString target) o'
  | .union es, variant, v => variant = "setExpression" ∧
      IsSet "union" (es = []) (AreExprs es) v
  | .intersection es, variant, v => variant = "setExpression" ∧
      IsSet "intersection" (es = []) (AreExprs es) v
  | .exclusion base excluded, variant, v => variant = "exclusionExpression" ∧
      ∃ o o', v.Gives ["base", "subtract"] [o, o'] ∧
        Filled False (IsChoice (IsVariant base)) o ∧
        Filled False (IsChoice (IsVariant excluded)) o'

/-- The trees write the expressions, one each. -/
def AreExprs : List Expr → List Tree → Prop
  | [], vs => vs = []
  | e :: es, vs => ∃ w ws, vs = w :: ws ∧ IsChoice (IsVariant e) w ∧ AreExprs es ws

end

/-- The tree writes the expression. -/
def IsExpr (e : Expr) : Tree → Prop := IsChoice (IsVariant e)

/-- The tree writes the restriction. -/
def IsSubject (s : SubjectEntry) (v : Tree) : Prop :=
  ∃ o o', v.Gives ["resourceType", "relation"] [o, o'] ∧
    Filled (s.type = "") (IsString s.type) o ∧ Filled (s.relation = "") (IsString s.relation) o'

/-- The tree writes a relation with these restrictions. -/
def IsRelation (subjects : List SubjectEntry) (v : Tree) : Prop :=
  ∃ o, v.Gives ["typeRestrictions"] [o] ∧ Filled (subjects = []) (IsList IsSubject subjects) o

/-- The tree writes a permission with this expression. -/
def IsPermission (e : Expr) (v : Tree) : Prop :=
  ∃ o, v.Gives ["expression"] [o] ∧ Filled False (IsExpr e) o

/-- The tree writes the definition of a type. -/
def IsType (t : TypeEntry) (v : Tree) : Prop :=
  ∃ o o' o'', v.Gives ["name", "relations", "permissions"] [o, o', o''] ∧
    Filled (t.name = "") (IsString t.name) o ∧
    Filled (t.relations = []) (IsMap IsRelation t.relations) o' ∧
    Filled (t.permissions = []) (IsMap IsPermission t.permissions) o''

/-- The tree writes the document. -/
def IsDocument (d : Document) (v : Tree) : Prop :=
  ∃ o, v.Gives ["typeDefinitions"] [o] ∧ Filled (d.types = []) (IsMap IsType d.types) o

theorem filled_some_iff {α : Type} {d x : α} {p : Tree → Prop} {o : Option Tree} :
    Filled (some d = some x) p o ↔ Filled (x = d) p o := by
  rw [Option.some.injEq, eq_comm]

/-! ## Expressions -/

/-- The trees of a list of expressions are forms of its elements. -/
theorem areExprs_iff {es : List Expr} {vs : List Tree} :
    AreExprs es vs ↔ List.Forall₂ IsExpr es vs := by
  induction es generalizing vs with
  | nil => simp [AreExprs]
  | cons e es ih =>
      rw [AreExprs]
      constructor
      · intro ⟨w, ws, hvs, hw, hws⟩
        rw [hvs]
        exact .cons hw (ih.mp hws)
      · intro h
        cases h with
        | cons hw hws => exact ⟨_, _, rfl, hw, ih.mpr hws⟩

section Expressions

variable {expr : Reader Expr} {n : Nat}

/-- The tree is the content of a set operation with these operands. -/
def AreOperands (es : List Expr) (v : Tree) : Prop :=
  ∃ o, v.Gives ["operands"] [o] ∧ Filled (es = []) (IsList IsExpr es) o

/-- A set operation is a choice of its name, with the operands as content. -/
theorem isSet_iff {op : String} {es : List Expr} {v : Tree} :
    IsSet op (es = []) (AreExprs es) v ↔
      IsChoice (fun name v => name = op ∧ AreOperands es v) v := by
  simp only [IsSet, areExprs_iff]
  rfl

/-- Operands are read exactly from their forms. -/
theorem operands_reads (h : expr.Reads n IsExpr) : (operands expr).Reads n AreOperands := by
  refine ((Record.single_reads (Reader.list_reads h) _ _ _).mono (by omega)).congr fun es v => ?_
  simp only [filled_some_iff]
  rfl

/-- A set operation is read exactly from its forms, if its operands are. -/
theorem set_reads (h : expr.Reads n IsExpr) :
    (Reader.choice (setVariants expr)).Reads n fun e v => IsVariant e "setExpression" v := by
  let shape : Expr → String → Tree → Prop := fun e name v =>
    (name = "union" ∧ ∃ es, AreOperands es v ∧ e = .union es) ∨
      (name = "intersection" ∧ ∃ es, AreOperands es v ∧ e = .intersection es)
  have hvariants : ∀ w ∈ setVariants expr, w.read.Reads n fun e v => shape e w.name v := by
    simp only [setVariants, List.forall_mem_cons, List.not_mem_nil, false_implies, implies_true,
      and_true]
    refine ⟨?_, ?_⟩
    · exact ((operands_reads h).apply Expr.union).congr (by simp [shape])
    · exact ((operands_reads h).apply Expr.intersection).congr (by simp [shape])
  have hnames : ∀ e name v, shape e name v →
      name ∈ (setVariants expr).map Json.Variant.name := by
    intro e name v hshape
    rcases hshape with ⟨rfl, -⟩ | ⟨rfl, -⟩ <;> simp [setVariants]
  refine ((Reader.choice_reads hvariants hnames).mono (by omega)).congr fun e v => ?_
  cases e <;> simp [IsVariant, isSet_iff, shape, IsChoice]

/-- An expression is read exactly from its forms. -/
theorem exprWithin_reads (n : Nat) : (exprWithin n).Reads n IsExpr := by
  induction n with
  | zero => exact ⟨fun h => (by cases h), fun _ _ _ h => absurd h (by omega)⟩
  | succ n ih =>
      rw [exprWithin]
      refine Reader.choice_reads (m := n) (p := IsVariant) ?_ ?_
      · simp only [exprVariants, List.forall_mem_cons, List.not_mem_nil, false_implies,
          implies_true, and_true]
        refine ⟨?_, ?_, ?_, ?_⟩
        · refine (((Record.single_reads (Reader.string_reads n) _ _ _).mono
            (by omega)).apply _).congr fun e v => ?_
          cases e <;> simp [IsVariant]
        · refine (((Record.pair_reads (Reader.string_reads n) _ (by decide) _).mono
            (by omega)).apply _).congr fun e v => ?_
          cases e <;> simp [IsVariant]
        · exact set_reads ih
        · refine (((Record.pair_reads ih _ (by decide) _).mono
            (by omega)).apply _).congr fun e v => ?_
          cases e <;> simp [IsVariant, IsExpr]
      · intro e name content h
        cases e <;> (rw [IsVariant] at h; simp [exprVariants, h.1])

end Expressions

/-! ## Definitions -/

/-- A restriction is read exactly from its forms, at any level. -/
theorem subjectEntry_reads (n : Nat) : subjectEntry.Reads n IsSubject := by
  refine (((Record.pair_reads (Reader.string_reads n) _ (by decide) _).mono
    (by omega)).apply _).congr fun s v => ?_
  simp only [filled_some_iff]
  constructor
  · intro ⟨x, hx, hs⟩
    subst hs
    exact hx
  · intro hs
    exact ⟨(s.type, s.relation), hs, rfl⟩

theorem relation_reads (n : Nat) : relation.Reads n IsRelation := by
  refine ((Record.single_reads (Reader.list_reads (subjectEntry_reads n)) _ _ _).mono
    (by omega)).congr fun subjects v => ?_
  simp only [filled_some_iff]
  rfl

/-- A permission is read exactly from its forms, up to the limit of nesting. -/
theorem permission_reads : permission.Reads (Json.levelLimit + 1) IsPermission := by
  refine ((Record.single_reads (exprWithin_reads _) _ _ _).mono (by omega)).congr fun e v => ?_
  simp [IsPermission]

/-- How the value of a field changes the definition of a type. -/
def typeShape (key : String) (change : TypeDraft → TypeDraft) (v : Tree) : Prop :=
  (key = "name" ∧ ∃ x, IsString x v ∧ change = fun draft => { draft with name := some x }) ∨
    (key = "relations" ∧ ∃ x, IsMap IsRelation x v ∧
      change = fun draft => { draft with relations := some x }) ∨
    (key = "permissions" ∧ ∃ x, IsMap IsPermission x v ∧
      change = fun draft => { draft with permissions := some x })

theorem typeShape_name {v : Tree} (change : TypeDraft → TypeDraft) : typeShape "name" change v ↔
    ∃ x, IsString x v ∧ change = fun draft => { draft with name := some x } := by
  simp [typeShape]

theorem typeShape_relations {v : Tree} (change : TypeDraft → TypeDraft) :
    typeShape "relations" change v ↔ ∃ x, IsMap IsRelation x v ∧
      change = fun draft => { draft with relations := some x } := by
  simp [typeShape]

theorem typeShape_permissions {v : Tree} (change : TypeDraft → TypeDraft) :
    typeShape "permissions" change v ↔ ∃ x, IsMap IsPermission x v ∧
      change = fun draft => { draft with permissions := some x } := by
  simp [typeShape]

/-- A draft of a type is a slot for each of its three fields. -/
theorem fills_type {es : List (String × Tree)} {draft last : TypeDraft} :
    Fills typeRecord.fields typeShape draft es last ↔
      Slot IsString "name" es draft.name last.name ∧
        Slot (IsMap IsRelation) "relations" es draft.relations last.relations ∧
        Slot (IsMap IsPermission) "permissions" es draft.permissions last.permissions := by
  induction es generalizing draft with
  | nil =>
      rw [Fills, Json.slot_nil, Json.slot_nil, Json.slot_nil]
      cases last
      cases draft
      simp
  | cons e es ih =>
      obtain ⟨key, v⟩ := e
      by_cases hname : "name" = key
      · subst hname
        have hfind : typeRecord.fields.find? (·.name = "name") =
            some (Json.Field.of "name" Reader.string (·.name)
              fun draft x => { draft with name := x }) := rfl
        rw [Json.slot_cons_self, Json.slot_cons_of_ne (by decide), Json.slot_cons_of_ne (by decide),
          Json.fills_known hfind typeShape_name]
        simp only [ih]
        tauto
      by_cases hrelations : "relations" = key
      · subst hrelations
        have hfind : typeRecord.fields.find? (·.name = "relations") =
            some (Json.Field.of "relations" (Reader.map relation) (·.relations)
              fun draft x => { draft with relations := x }) := rfl
        rw [Json.slot_cons_self, Json.slot_cons_of_ne (by decide), Json.slot_cons_of_ne (by decide),
          Json.fills_known hfind typeShape_relations]
        simp only [ih]
        tauto
      by_cases hpermissions : "permissions" = key
      · subst hpermissions
        have hfind : typeRecord.fields.find? (·.name = "permissions") =
            some (Json.Field.of "permissions" (Reader.map permission) (·.permissions)
              fun draft x => { draft with permissions := x }) := rfl
        rw [Json.slot_cons_self, Json.slot_cons_of_ne (by decide), Json.slot_cons_of_ne (by decide),
          Json.fills_known hfind typeShape_permissions]
        simp only [ih]
        tauto
      rw [Json.slot_cons_of_ne (Ne.symm hname), Json.slot_cons_of_ne (Ne.symm hrelations),
        Json.slot_cons_of_ne (Ne.symm hpermissions), Json.fills_unknown, ih]
      simp [typeRecord, Json.Field.of, hname, hrelations, hpermissions]

/-- The fields of a type have different names, and none fills another. -/
theorem typeRecord_lawful : typeRecord.Lawful typeShape := by
  refine ⟨by decide, by simp [typeRecord, Json.Field.of], ?_⟩
  intro f hf g hg hne change v hv draft
  simp only [typeRecord, List.mem_cons, List.not_mem_nil, or_false] at hf hg
  rcases hf with rfl | rfl | rfl
  · obtain ⟨x, -, rfl⟩ := (typeShape_name change).mp hv
    rcases hg with rfl | rfl | rfl
    · exact absurd rfl hne
    · rfl
    · rfl
  · obtain ⟨x, -, rfl⟩ := (typeShape_relations change).mp hv
    rcases hg with rfl | rfl | rfl
    · rfl
    · exact absurd rfl hne
    · rfl
  · obtain ⟨x, -, rfl⟩ := (typeShape_permissions change).mp hv
    rcases hg with rfl | rfl | rfl
    · rfl
    · rfl
    · exact absurd rfl hne

/-- Each field of a type is read exactly from its forms. -/
theorem typeRecord_fields_reads {f : Json.Field TypeDraft} (hf : f ∈ typeRecord.fields) :
    f.read.Reads Json.levelLimit (typeShape f.name) := by
  simp only [typeRecord, List.mem_cons, List.not_mem_nil, or_false] at hf
  rcases hf with rfl | rfl | rfl
  · have hstring := Reader.string_reads Json.levelLimit
    exact (Json.Field.of_reads hstring _ _ _).congr fun change _ => (typeShape_name change).symm
  · have hmap : (Reader.map relation).Reads Json.levelLimit (IsMap IsRelation) :=
      (Reader.map_reads (relation_reads Json.levelLimit)).mono (by omega)
    exact (Json.Field.of_reads hmap _ _ _).congr fun change _ => (typeShape_relations change).symm
  · have hmap : (Reader.map permission).Reads Json.levelLimit (IsMap IsPermission) :=
      (Reader.map_reads permission_reads).mono (by omega)
    exact (Json.Field.of_reads hmap _ _ _).congr fun change _ => (typeShape_permissions change).symm

/-- A type is read exactly from its forms. -/
theorem typeRecord_reads : typeRecord.read.Reads (Json.levelLimit + 1) IsType := by
  refine (Record.read_reads typeRecord_lawful fun f hf => typeRecord_fields_reads hf).congr
    fun t v => ?_
  have hempty : typeRecord.empty = ⟨none, none, none⟩ := rfl
  simp only [Record.Drafts, fills_type, hempty, Slot]
  constructor
  · intro h
    obtain ⟨draft, ⟨es, hes, ⟨o, ho, ha⟩, ⟨o', ho', hb⟩, o'', ho'', hc⟩, hbuild⟩ := h
    cases hbuild
    exact ⟨o, o', o'', ⟨es, hes, .cons ho (.cons ho' (.cons ho'' .nil))⟩,
      Json.exists_getD_iff.mp ⟨_, ha, rfl⟩, Json.exists_getD_iff.mp ⟨_, hb, rfl⟩,
      Json.exists_getD_iff.mp ⟨_, hc, rfl⟩⟩
  · intro h
    obtain ⟨o, o', o'', ⟨es, hes, hvalues⟩, ho, ho', ho''⟩ := h
    obtain ⟨hname, hvalues⟩ := List.forall₂_cons.mp hvalues
    obtain ⟨hrelations, hvalues⟩ := List.forall₂_cons.mp hvalues
    obtain ⟨hpermissions, -⟩ := List.forall₂_cons.mp hvalues
    obtain ⟨a, ha, hx⟩ := Json.exists_getD_iff.mpr ho
    obtain ⟨b, hb, hy⟩ := Json.exists_getD_iff.mpr ho'
    obtain ⟨c, hc, hz⟩ := Json.exists_getD_iff.mpr ho''
    refine ⟨⟨a, b, c⟩, ⟨es, hes, ⟨o, hname, ha⟩, ⟨o', hrelations, hb⟩, o'', hpermissions, hc⟩, ?_⟩
    simp only [typeRecord, hx, hy, hz]

/-- A document is read exactly from its forms. -/
theorem document_reads : document.Reads (Json.levelLimit + 1) IsDocument := by
  refine (((Record.single_reads (Reader.map_reads typeRecord_reads) _ _ _).mono (by omega)).apply
    _).congr fun d v => ?_
  simp only [filled_some_iff]
  constructor
  · intro ⟨types, htypes, hd⟩
    subst hd
    exact htypes
  · intro h
    exact ⟨d.types, h, rfl⟩

end Rebac.Wire
