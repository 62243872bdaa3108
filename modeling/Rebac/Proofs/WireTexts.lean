import Rebac.Proofs.WireForms
import Rebac.Proofs.WireSchemas

/-!
# Schemas and their wire texts

A wire form of a schema is a form of a document that declares it.  Every schema has one
(`Schema.exists_isWireForm`).  If its names are distinct and its subjects are named, it is read from
each text of each of its forms, sorted, unless the form nests too deep
(`Wire.readSchema_of_wireForm`).

In the other direction an accepted text is the text of a form of some document.  The schema is what
the last entries of the document declare, and an entry is lost exactly if its key is repeated
(`Wire.nothing_lost_iff_distinctKeys`).
-/

namespace Rebac

open Json (Tree Body IsString IsList IsMap IsChoice Filled)

namespace Wire

/-! ## Every document has a form -/

/-- If each value has a form, so has each list of values, item by item. -/
theorem exists_forall₂ {α β : Type} {p : α → β → Prop} (h : ∀ x, ∃ y, p x y) (xs : List α) :
    ∃ ys, List.Forall₂ p xs ys := by
  induction xs with
  | nil => exact ⟨[], .nil⟩
  | cons x xs ih =>
      obtain ⟨y, hy⟩ := h x
      obtain ⟨ys, hys⟩ := ih
      exact ⟨y :: ys, .cons hy hys⟩

/-- Every string has a body that spells it. -/
theorem exists_body (s : String) : ∃ b : Body, b.Spells s := by
  obtain ⟨body, hbody⟩ := Json.exists_spells s.toList
  exact ⟨⟨body, hbody.isBody⟩, hbody⟩

theorem exists_isString (s : String) : ∃ v, IsString s v := by
  obtain ⟨b, hb⟩ := exists_body s
  exact ⟨.string b, b, rfl, hb⟩

/-- Any entries are those of an object. -/
theorem exists_isObject (es : List (String × Tree)) : ∃ v : Tree, v.IsObject es := by
  have hmember : ∀ e : String × Tree, ∃ m, Json.IsMember e m := by
    intro e
    obtain ⟨k, hk⟩ := exists_body e.1
    exact ⟨(k, e.2), hk, rfl⟩
  obtain ⟨ms, hms⟩ := exists_forall₂ hmember es
  exact ⟨.object ms, ms, rfl, hms⟩

theorem exists_gives_one (name : String) (w : Tree) : ∃ v : Tree, v.Gives [name] [some w] := by
  obtain ⟨v, hv⟩ := exists_isObject [(name, w)]
  refine ⟨v, _, .inl hv, .cons ?_ .nil⟩
  simp [Json.valuesAt]

/-- A record of two fields can be written as an object. -/
theorem exists_gives_two {first second : String} (hne : first ≠ second) (w w' : Tree) :
    ∃ v : Tree, v.Gives [first, second] [some w, some w'] := by
  obtain ⟨v, hv⟩ := exists_isObject [(first, w), (second, w')]
  refine ⟨v, _, .inl hv, .cons ?_ (.cons ?_ .nil)⟩
  · simp [Json.valuesAt, hne.symm]
  · simp [Json.valuesAt, hne]

theorem exists_isChoice {p : String → Tree → Prop} {name : String} {content : Tree}
    (h : p name content) : ∃ v, IsChoice p v := by
  obtain ⟨v, hv⟩ := exists_isObject [(name, content)]
  exact ⟨v, name, content, hv, h⟩

section Shapes

variable {α : Type} {p : α → Tree → Prop}

/-- If each value has a form, so has each list. -/
theorem exists_isList (h : ∀ x, ∃ v, p x v) (xs : List α) : ∃ v, IsList p xs v := by
  obtain ⟨vs, hvs⟩ := exists_forall₂ h xs
  exact ⟨.array vs, vs, rfl, hvs⟩

/-- If each value has a form, so has each map. -/
theorem exists_isMap (h : ∀ x, ∃ v, p x v) (xs : List (String × α)) : ∃ v, IsMap p xs v := by
  have hentry : ∀ x : String × α, ∃ e : String × Tree, x.1 = e.1 ∧ p x.2 e.2 := by
    intro x
    obtain ⟨v, hv⟩ := h x.2
    exact ⟨(x.1, v), rfl, hv⟩
  obtain ⟨es, hes⟩ := exists_forall₂ hentry xs
  obtain ⟨v, hv⟩ := exists_isObject es
  exact ⟨v, es, hv, hes⟩

end Shapes

theorem exists_isSet (op : String) (absent : Prop) {items : List Tree → Prop} {vs : List Tree}
    (h : items vs) : ∃ v, IsSet op absent items v := by
  obtain ⟨content, hcontent⟩ := exists_gives_one "operands" (.array vs)
  exact exists_isChoice ⟨rfl, some (.array vs), hcontent, vs, rfl, h⟩

mutual

/-- Every expression has a form, by recursion over it and its operands. -/
theorem exists_isExpr : (e : Expr) → ∃ v, IsExpr e v
  | .name source => by
      obtain ⟨w, hw⟩ := exists_isString source
      obtain ⟨content, hcontent⟩ := exists_gives_one "sourceRelation" w
      have hvariant : IsVariant (.name source) "unaryExpression" content := by
        rw [IsVariant]
        exact ⟨rfl, some w, hcontent, hw⟩
      exact exists_isChoice hvariant
  | .arrow base target => by
      obtain ⟨w, hw⟩ := exists_isString base
      obtain ⟨w', hw'⟩ := exists_isString target
      obtain ⟨content, hcontent⟩ := exists_gives_two (by decide : "base" ≠ "target") w w'
      have hvariant : IsVariant (.arrow base target) "hierarchicalExpression" content := by
        rw [IsVariant]
        exact ⟨rfl, some w, some w', hcontent, hw, hw'⟩
      exact exists_isChoice hvariant
  | .union es => by
      obtain ⟨vs, hvs⟩ := exists_areExprs es
      obtain ⟨content, hcontent⟩ := exists_isSet "union" (es = []) hvs
      have hvariant : IsVariant (.union es) "setExpression" content := by
        rw [IsVariant]
        exact ⟨rfl, hcontent⟩
      exact exists_isChoice hvariant
  | .intersection es => by
      obtain ⟨vs, hvs⟩ := exists_areExprs es
      obtain ⟨content, hcontent⟩ := exists_isSet "intersection" (es = []) hvs
      have hvariant : IsVariant (.intersection es) "setExpression" content := by
        rw [IsVariant]
        exact ⟨rfl, hcontent⟩
      exact exists_isChoice hvariant
  | .exclusion base excluded => by
      obtain ⟨w, hw⟩ := exists_isExpr base
      obtain ⟨w', hw'⟩ := exists_isExpr excluded
      obtain ⟨content, hcontent⟩ := exists_gives_two (by decide : "base" ≠ "subtract") w w'
      have hvariant : IsVariant (.exclusion base excluded) "exclusionExpression" content := by
        rw [IsVariant]
        exact ⟨rfl, some w, some w', hcontent, hw, hw'⟩
      exact exists_isChoice hvariant

theorem exists_areExprs : (es : List Expr) → ∃ vs, AreExprs es vs
  | [] => ⟨[], by rw [AreExprs]⟩
  | e :: es => by
      obtain ⟨v, hv⟩ := exists_isExpr e
      obtain ⟨vs, hvs⟩ := exists_areExprs es
      exact ⟨v :: vs, by rw [AreExprs]; exact ⟨v, vs, rfl, hv, hvs⟩⟩

end

theorem exists_isSubject (s : SubjectEntry) : ∃ v, IsSubject s v := by
  obtain ⟨w, hw⟩ := exists_isString s.type
  obtain ⟨w', hw'⟩ := exists_isString s.relation
  obtain ⟨v, hv⟩ := exists_gives_two (by decide : "resourceType" ≠ "relation") w w'
  exact ⟨v, some w, some w', hv, hw, hw'⟩

theorem exists_isRelation (subjects : List SubjectEntry) : ∃ v, IsRelation subjects v := by
  obtain ⟨w, hw⟩ := exists_isList exists_isSubject subjects
  obtain ⟨v, hv⟩ := exists_gives_one "typeRestrictions" w
  exact ⟨v, some w, hv, hw⟩

theorem exists_isPermission (e : Expr) : ∃ v, IsPermission e v := by
  obtain ⟨w, hw⟩ := exists_isExpr e
  obtain ⟨v, hv⟩ := exists_gives_one "expression" w
  exact ⟨v, some w, hv, hw⟩

/-- Every type has a form, with all of its fields given. -/
theorem exists_isType (t : TypeEntry) : ∃ v, IsType t v := by
  obtain ⟨w, hw⟩ := exists_isString t.name
  obtain ⟨w', hw'⟩ := exists_isMap exists_isRelation t.relations
  obtain ⟨w'', hw''⟩ := exists_isMap exists_isPermission t.permissions
  obtain ⟨v, hv⟩ := exists_isObject [("name", w), ("relations", w'), ("permissions", w'')]
  refine ⟨v, some w, some w', some w'', ⟨_, .inl hv, ?_⟩, hw, hw', hw''⟩
  simp [Json.valuesAt]

/-- Every document has a form. -/
theorem exists_isDocument (d : Document) : ∃ v, IsDocument d v := by
  obtain ⟨w, hw⟩ := exists_isMap exists_isType d.types
  obtain ⟨v, hv⟩ := exists_gives_one "typeDefinitions" w
  exact ⟨v, some w, hv, hw⟩

end Wire

/-! ## Wire forms of a schema -/

/-- The tree is the form of a document that declares the schema. -/
def Schema.IsWireForm (s : Schema) (v : Tree) : Prop :=
  ∃ d : Wire.Document, Wire.IsDocument d v ∧ d.Declares s

/-- The entry that declares a type. -/
def ObjectType.entry (t : ObjectType) : String × Wire.TypeEntry :=
  (t.name, ⟨t.name, t.relations.map Relation.entry, t.permissions.map Permission.entry⟩)

/-- Every schema is declared by a document, and the document has a form. -/
theorem Schema.exists_isWireForm (s : Schema) : ∃ v, s.IsWireForm v := by
  obtain ⟨v, hv⟩ := Wire.exists_isDocument ⟨s.types.map ObjectType.entry⟩
  refine ⟨v, _, hv, _, .refl _, ?_⟩
  rw [List.forall₂_map_left_iff, List.forall₂_same]
  exact fun t _ => ⟨rfl, .inr rfl, .refl _, .refl _⟩

/-- Reading undoes writing: every schema has a wire form, and from any text of any form it is read
back with its types, relations and permissions in the order of their names. -/
theorem Wire.readSchema_of_wireForm {s : Schema} (hs : s.DistinctNames) (hnamed : s.SubjectsNamed) :
    (∃ v, s.IsWireForm v) ∧ ∀ v text, s.IsWireForm v → v.IsText text →
      v.depth ≤ Json.levelLimit → Wire.readSchema text = .ok s.sorted := by
  refine ⟨s.exists_isWireForm, fun v text hform htext hdepth => ?_⟩
  obtain ⟨d, hd, hdeclares⟩ := hform
  have hread : Json.readAll Wire.document text = .ok d :=
    Json.readAll_complete Wire.document_reads (Nat.lt_succ_self _) hd htext hdepth
  rw [Wire.readSchema, hread]
  exact Wire.Document.schema_of_declares hdeclares hs hnamed

/-- Those related by `r` who are no members of what `r` leads to. -/
def nestedExpr : Expr := .union [.exclusion (.name "r") (.arrow "r" "m")]

/-- Two types, not in the order of their names. -/
def twoTypes : Schema where
  types := [⟨"b", [⟨"r", [⟨"a", some "m"⟩]⟩], [⟨"p", nestedExpr⟩]⟩, ⟨"a", [], []⟩]

/-- A text of `twoTypes` with an escape, and with most of its records as arrays. -/
def twoTypesText : String :=
  "\x7b\"typeDefinitions\":\x7b\"b\":[\"\"," ++
    "\x7b\"r\":[[\x7b\"relation\":\"m\",\"resourceType\":\"\\u0061\"\x7d]]\x7d," ++
    "\x7b\"p\":[\x7b\"setExpression\":\x7b\"union\":[[\x7b\"exclusionExpression\":[" ++
      "\x7b\"unaryExpression\":[\"r\"]\x7d,\x7b\"hierarchicalExpression\":[\"r\",\"m\"]\x7d" ++
    "]\x7d]]\x7d\x7d]\x7d],\"a\":\x7b\x7d\x7d\x7d"

set_option maxRecDepth 4000 in
theorem readAll_twoTypesText : Json.readAll Wire.document twoTypesText =
    .ok ⟨[("b", ⟨"", [("r", [⟨"a", "m"⟩])], [("p", nestedExpr)]⟩), ("a", ⟨"", [], []⟩)]⟩ := by
  -- Each part of the text is taken apart for itself, which is much faster.
  unfold Json.readAll twoTypesText
  simp only [String.toList_append]
  cbv

/-- The types come back in the order of their names, with the expression as it was. -/
theorem twoTypes_read : twoTypes.DistinctNames ∧ twoTypes.SubjectsNamed ∧
    ∃ v, twoTypes.IsWireForm v ∧ v.IsText twoTypesText ∧ v.depth ≤ Json.levelLimit ∧
      Wire.readSchema twoTypesText = .ok ⟨[⟨"a", [], []⟩,
        ⟨"b", [⟨"r", [⟨"a", some "m"⟩]⟩], [⟨"p", nestedExpr⟩]⟩]⟩ := by
  have hdistinct : twoTypes.DistinctNames := ⟨by decide, by decide, by decide⟩
  have hnamed : twoTypes.SubjectsNamed := by
    simp [Schema.SubjectsNamed, Relation.SubjectsNamed, twoTypes]
  obtain ⟨v, hd, htext⟩ := Json.readAll_sound Wire.document_reads readAll_twoTypesText
  have hform : twoTypes.IsWireForm v := by
    refine ⟨_, hd, _, .refl _, .cons ?_ (.cons ?_ .nil)⟩
    · exact ⟨rfl, .inl rfl, .refl _, .refl _⟩
    · exact ⟨rfl, .inl rfl, .refl _, .refl _⟩
  have hdepth : v.depth ≤ Json.levelLimit := by
    -- The text has too few brackets to nest too deep.
    obtain ⟨rest, hscans, -⟩ := htext
    have hcount : twoTypesText.toList.countP Json.isOpening ≤ Json.levelLimit := by
      unfold twoTypesText
      simp only [String.toList_append]
      decide +kernel
    exact (Tree.depth_le_of_scans hscans).trans hcount
  have hsorted : twoTypes.sorted = ⟨[⟨"a", [], []⟩,
      ⟨"b", [⟨"r", [⟨"a", some "m"⟩]⟩], [⟨"p", nestedExpr⟩]⟩]⟩ := by
    cbv
  rw [← hsorted]
  exact ⟨hdistinct, hnamed, v, hform, htext, hdepth,
    (Wire.readSchema_of_wireForm hdistinct hnamed).2 v _ hform htext hdepth⟩

/-! ## Repeated keys -/

/-- Reading keeps the last of the entries with one key.  So an accepted text loses no declaration
of its document if and only if no key is repeated in it. -/
theorem Wire.nothing_lost_iff_distinctKeys {text : String} {s : Schema}
    (h : Wire.readSchema text = .ok s) : ∃ d : Wire.Document,
      (∃ v, Wire.IsDocument d v ∧ v.IsText text) ∧
      (∀ d' v, Wire.IsDocument d' v → v.IsText text → v.depth ≤ Json.levelLimit → d' = d) ∧
      d.latest.Declares s ∧ (d.Declares s ↔ d.DistinctKeys) := by
  rw [Wire.readSchema] at h
  split at h
  · rename_i d hread
    refine ⟨d, Json.readAll_sound Wire.document_reads hread, fun d' v hd' htext hdepth => ?_,
      d.latest_declares h, d.declares_iff_distinctKeys h⟩
    have hread' : Json.readAll Wire.document text = .ok d' :=
      Json.readAll_complete Wire.document_reads (Nat.lt_succ_self _) hd' htext hdepth
    exact Except.ok.inj (hread'.symm.trans hread)
  · cases h

/-- A document with two definitions of the permission `p`. -/
def repeatedDocument : Wire.Document :=
  ⟨[("t", ⟨"", [], [("p", .name "a"), ("p", .name "b")]⟩)]⟩

/-- A text of `repeatedDocument`. -/
def repeatedText : String :=
  "\x7b\"typeDefinitions\":\x7b\"t\":\x7b\"permissions\":\x7b" ++
    "\"p\":\x7b\"expression\":\x7b\"unaryExpression\":\x7b\"sourceRelation\":\"a\"\x7d\x7d\x7d," ++
    "\"p\":\x7b\"expression\":\x7b\"unaryExpression\":\x7b\"sourceRelation\":\"b\"\x7d\x7d\x7d" ++
    "\x7d\x7d\x7d\x7d"

set_option maxRecDepth 4000 in
theorem readAll_repeatedText : Json.readAll Wire.document repeatedText = .ok repeatedDocument := by
  unfold Json.readAll repeatedText
  simp only [String.toList_append]
  cbv

/-- The schema that is read, with the second definition only. -/
def mergedSchema : Schema where
  types := [⟨"t", [], [⟨"p", .name "b"⟩]⟩]

/-- The text with two definitions of `p` is accepted. -/
theorem readSchema_repeatedText : Wire.readSchema repeatedText = .ok mergedSchema := by
  rw [Wire.readSchema, readAll_repeatedText]
  decide

/-- The text has one document, and the schema is what its last entries declare. -/
theorem mergedSchema_declared : ∃ d : Wire.Document,
    (∃ v, Wire.IsDocument d v ∧ v.IsText repeatedText) ∧
    (∀ d' v, Wire.IsDocument d' v → v.IsText repeatedText → v.depth ≤ Json.levelLimit → d' = d) ∧
    d.latest.Declares mergedSchema ∧ (d.Declares mergedSchema ↔ d.DistinctKeys) :=
  Wire.nothing_lost_iff_distinctKeys readSchema_repeatedText

/-- The first definition is lost without an error. -/
theorem repeatedText_loses_permission : Wire.readSchema repeatedText = .ok mergedSchema ∧
    (∃ v, Wire.IsDocument repeatedDocument v ∧ v.IsText repeatedText) ∧
    ¬ repeatedDocument.Declares mergedSchema := by
  refine ⟨readSchema_repeatedText, Json.readAll_sound Wire.document_reads readAll_repeatedText, ?_⟩
  have hschema : repeatedDocument.schema = .ok mergedSchema := by decide
  rw [Wire.Document.declares_iff_distinctKeys hschema]
  intro hdistinct
  have hkeys := hdistinct.permissions ("t", ⟨"", [], [("p", .name "a"), ("p", .name "b")]⟩)
    (.head _)
  exact absurd hkeys (by decide)

end Rebac
