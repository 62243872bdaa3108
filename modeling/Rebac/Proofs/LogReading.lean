import Rebac.Proofs.DanglingNames
import Rebac.Proofs.EarlyChecks
import Rebac.Proofs.RestrictionRows
import Rebac.Proofs.WireSchemas
import Rebac.Rule.Render

/-!
# Reading a rule base back from its log

A log has one clause a line, in three forms that nothing marks, and names stand in it as they are.
So it can be read only if names keep to their characters: small letters, digits, the underscore and
the separator of synthesized names.  All else in a clause is punctuation, which cuts the line into
*pieces*.  A fact has five pieces or six, a unary clause fifteen and a binary clause twenty-two, so
the number of pieces tells the form, and each name has its place among them (`Clause.read_text`).

In a schema that is read from a text all names are of this kind, and the compiler adds no character
but separators and digits (`Schema.Plain.rows_of_compile`).  So the log of such a schema loses
nothing.
-/

namespace Rebac

/-! ## Clauses -/

/-- A row of a rule base. -/
inductive Clause where
  | restriction (r : Restriction)
  | unary (r : UnaryRule)
  | binary (r : BinaryRule)
  deriving Repr, DecidableEq

/-- A row as a line of a log. -/
def Clause.text : Clause → String
  | .restriction r => r.text
  | .unary r => r.text
  | .binary r => r.text

/-- The names in a row. -/
def Clause.names : Clause → List String
  | .restriction r =>
      [r.resourceType, r.relation] ++ Subject.names ⟨r.subjectType, r.subjectRelation⟩
  | .unary r => [r.type, r.source, r.derived]
  | .binary r => [r.firstType, r.first, r.secondType, r.second, r.derived]

/-- The rows of a rule base in the order of its log. -/
def RuleBase.rows (b : RuleBase) : List Clause :=
  b.restrictions.map .restriction ++ b.unary.map .unary ++ b.binary.map .binary

/-- Sorts rows into the three tables. -/
def RuleBase.ofRows (rows : List Clause) : RuleBase where
  restrictions := rows.filterMap fun
    | .restriction r => some r
    | _ => none
  unary := rows.filterMap fun
    | .unary r => some r
    | _ => none
  binary := rows.filterMap fun
    | .binary r => some r
    | _ => none

/-- Sorting the rows into tables undoes listing them. -/
theorem RuleBase.ofRows_rows (b : RuleBase) : RuleBase.ofRows b.rows = b := by
  simp [RuleBase.ofRows, RuleBase.rows, List.filterMap_append, List.filterMap_map]

theorem RuleBase.clauses_eq (b : RuleBase) : b.clauses = b.rows.map Clause.text := by
  simp only [RuleBase.clauses, RuleBase.rows, List.map_append, List.map_map]
  rfl

/-- There are as many rows as the size of the rule base says. -/
theorem RuleBase.length_rows (b : RuleBase) : b.rows.length = b.size := by
  simp only [RuleBase.rows, RuleBase.size, List.length_append, List.length_map]

/-! ## Pieces of a line -/

/-- Whether a character can stand in a name, declared or synthesized. -/
def isNameChar (c : Char) : Bool := c.isLower || c.isDigit || c == '_' || c == separator

/-- The name has no punctuation. -/
def IsPlain (name : String) : Prop := name.toList.all isNameChar = true

/-- What stands between the punctuation of a line. -/
def pieces (line : List Char) : List String :=
  (line.splitOnP fun c => !isNameChar c).map String.ofList

/-- Reads a line by its pieces.  Those that are left out are empty, or say again what others say. -/
def Clause.read (line : String) : Option Clause :=
  match pieces line.toList with
  | [relation, subject, _, type, _] => some (.restriction ⟨type, relation, subject, none⟩)
  | [relation, subject, held, _, type, _] =>
      some (.restriction ⟨type, relation, subject, some held⟩)
  | [type, derived, _, _, _, _, _, _, _, _, source, _, _, _, _] =>
      some (.unary ⟨type, source, derived⟩)
  | [type, derived, _, _, _, _, _, _, _, firstType, first, _, _, _, _, _, _, second, _, _, _, _] =>
      some (.binary ⟨firstType, first, type, second, derived⟩)
  | _ => none

/-- A plain name is one piece, up to the punctuation after it. -/
theorem pieces_append {name : String} (h : IsPlain name) {c : Char} (hc : isNameChar c = false)
    (rest : List Char) : pieces (name.toList ++ c :: rest) = name :: pieces rest := by
  have hname : ∀ d ∈ name.toList, (!isNameChar d) = false := by
    intro d hd
    simpa using List.all_eq_true.mp h d hd
  rw [pieces, List.splitOnP_append_cons_of_forall_mem hname c (by simp [hc]), List.map_cons,
    String.ofList_toList]
  rfl

/-- Punctuation at the front leaves an empty piece before it. -/
theorem pieces_cons {c : Char} (hc : isNameChar c = false) (rest : List Char) :
    pieces (c :: rest) = "" :: pieces rest := by
  have hempty : IsPlain "" := rfl
  exact pieces_append hempty hc rest

/-- An atom has five pieces, one of them empty between its comma and the blank. -/
theorem pieces_atomText {type name left right : String} (htype : IsPlain type)
    (hname : IsPlain name) (hleft : IsPlain left) (hright : IsPlain right) (rest : List Char) :
    pieces ((atomText type name left right).toList ++ rest) =
      type :: name :: left :: "" :: right :: pieces rest := by
  have htext : (atomText type name left right).toList ++ rest = type.toList ++ '#' ::
      (name.toList ++ '(' :: (left.toList ++ ',' :: ' ' :: (right.toList ++ ')' :: rest))) := by
    simp [atomText, Member.text]
  rw [htext, pieces_append htype rfl, pieces_append hname rfl, pieces_append hleft rfl,
    pieces_cons rfl, pieces_append hright rfl]

/-- A clause with plain names is read back from its line. -/
theorem Clause.read_text {c : Clause} (h : ∀ n ∈ c.names, IsPlain n) :
    Clause.read c.text = some c := by
  have hsubject : IsPlain "subject" := rfl
  have hend : pieces [] = [""] := rfl
  cases c with
  | restriction r =>
      obtain ⟨type, relation, subject, held⟩ := r
      simp only [Clause.names, Subject.names, List.cons_append, List.nil_append,
        List.forall_mem_cons] at h
      obtain ⟨htype, hrelation, hsubjectType, hheld⟩ := h
      cases held with
      | none =>
          have htext : (Restriction.text ⟨type, relation, subject, none⟩).toList =
              relation.toList ++ '(' :: (subject.toList ++ ',' :: ' ' ::
                (type.toList ++ ')' :: [])) := by
            simp [Restriction.text, Subject.text]
          rw [Clause.read, Clause.text, htext, pieces_append hrelation rfl,
            pieces_append hsubjectType rfl, pieces_cons rfl, pieces_append htype rfl, hend]
      | some held =>
          have hheld : IsPlain held := hheld held (by simp)
          have htext : (Restriction.text ⟨type, relation, subject, some held⟩).toList =
              relation.toList ++ '(' :: (subject.toList ++ '#' :: (held.toList ++ ',' :: ' ' ::
                (type.toList ++ ')' :: []))) := by
            simp [Restriction.text, Subject.text]
          rw [Clause.read, Clause.text, htext, pieces_append hrelation rfl,
            pieces_append hsubjectType rfl, pieces_append hheld rfl, pieces_cons rfl,
            pieces_append htype rfl, hend]
  | unary r =>
      simp only [Clause.names, List.forall_mem_cons] at h
      obtain ⟨htype, hsource, hderived, _⟩ := h
      have htext : r.text.toList = (atomText r.type r.derived "subject" r.type).toList ++
          ' ' :: ':' :: '-' :: ' ' ::
            ((atomText r.type r.source "subject" r.type).toList ++ []) := by
        simp [UnaryRule.text]
      rw [Clause.read, Clause.text, htext, pieces_atomText htype hderived hsubject htype,
        pieces_cons rfl, pieces_cons rfl, pieces_cons rfl, pieces_cons rfl,
        pieces_atomText htype hsource hsubject htype, hend]
  | binary r =>
      simp only [Clause.names, List.forall_mem_cons] at h
      obtain ⟨hfirstType, hfirst, hsecondType, hsecond, hderived, _⟩ := h
      have htext : r.text.toList =
          (atomText r.secondType r.derived "subject" r.secondType).toList ++
            ' ' :: ':' :: '-' :: ' ' ::
              ((atomText r.firstType r.first "subject" r.firstType).toList ++ ',' :: ' ' ::
                ((atomText r.secondType r.second r.firstType r.secondType).toList ++ [])) := by
        simp [BinaryRule.text]
      rw [Clause.read, Clause.text, htext,
        pieces_atomText hsecondType hderived hsubject hsecondType,
        pieces_cons rfl, pieces_cons rfl, pieces_cons rfl, pieces_cons rfl,
        pieces_atomText hfirstType hfirst hsubject hfirstType, pieces_cons rfl, pieces_cons rfl,
        pieces_atomText hsecondType hsecond hfirstType hsecondType, hend]

/-! ## Lines of a log -/

/-- The lines of a text.  The empty text has none. -/
def logLines (text : String) : List String :=
  if text = "" then [] else (text.toList.splitOn '\n').map String.ofList

/-- Reads a log line by line. -/
def RuleBase.readLog (text : String) : Option RuleBase :=
  ((logLines text).mapM Clause.read).map RuleBase.ofRows

/-- No row of the rule base has a name with punctuation. -/
def RuleBase.Plain (b : RuleBase) : Prop := ∀ c ∈ b.rows, ∀ n ∈ c.names, IsPlain n

theorem IsPlain.newline_not_mem {n : String} (h : IsPlain n) : '\n' ∉ n.toList := by
  intro hmem
  have hchar : isNameChar '\n' = true := List.all_eq_true.mp h '\n' hmem
  exact absurd hchar (by decide)

/-- The line of a clause with plain names is one line. -/
theorem Clause.newline_not_mem_text {c : Clause} (h : ∀ n ∈ c.names, IsPlain n) :
    '\n' ∉ c.text.toList := by
  have hnames : ∀ n ∈ c.names, '\n' ∉ n.toList := fun n hn => (h n hn).newline_not_mem
  cases c with
  | restriction r =>
      obtain ⟨type, relation, subject, held⟩ := r
      cases held with
      | none =>
          simp only [Clause.names, Subject.names, List.cons_append, List.nil_append,
            List.forall_mem_cons] at hnames
          simp [Clause.text, Restriction.text, Subject.text, hnames]
      | some held =>
          simp only [Clause.names, Subject.names, Option.toList_some, List.cons_append,
            List.nil_append, List.forall_mem_cons] at hnames
          simp [Clause.text, Restriction.text, Subject.text, hnames]
  | unary r =>
      simp only [Clause.names, List.forall_mem_cons] at hnames
      simp [Clause.text, UnaryRule.text, atomText, Member.text, hnames]
  | binary r =>
      simp only [Clause.names, List.forall_mem_cons] at hnames
      simp [Clause.text, BinaryRule.text, atomText, Member.text, hnames]

/-- The lines of a log are its clauses, if names have no line breaks. -/
theorem RuleBase.logLines_log {b : RuleBase} (h : b.Plain) : logLines b.log = b.clauses := by
  rw [b.clauses_eq]
  by_cases hrows : b.rows = []
  · simp [logLines, RuleBase.log, b.clauses_eq, hrows]
  · have hsplit : b.log.toList.splitOn '\n' = (b.rows.map Clause.text).map String.toList := by
      rw [RuleBase.log, String.toList_ofList, b.clauses_eq]
      refine List.splitOn_intercalate '\n' ?_ (by simpa using hrows)
      intro line hline
      obtain ⟨_, htext, rfl⟩ := List.mem_map.mp hline
      obtain ⟨c, hc, rfl⟩ := List.mem_map.mp htext
      exact Clause.newline_not_mem_text (h c hc)
    have hne : b.log ≠ "" := by
      intro hlog
      -- The only line would be empty, and no clause is read from it.
      have hlines : (b.rows.map Clause.text).map String.toList = [[]] := by
        rw [← hsplit, hlog]
        rfl
      obtain ⟨c, hc⟩ := List.exists_mem_of_ne_nil _ hrows
      have hline : c.text.toList ∈ ([[]] : List (List Char)) :=
        hlines ▸ List.mem_map_of_mem (List.mem_map_of_mem hc)
      have htext : c.text = "" := by simpa using hline
      have hread := Clause.read_text (h c hc)
      rw [htext] at hread
      cases hread
    rw [logLines, if_neg hne, hsplit, List.map_map]
    simp [Function.comp_def]

/-- A log of plain names is read back as its rule base. -/
theorem RuleBase.readLog_log {b : RuleBase} (h : b.Plain) : RuleBase.readLog b.log = some b := by
  have hread : (b.rows.map Clause.text).mapM Clause.read = some b.rows :=
    Wire.mapM_map_eq_some fun c hc => Clause.read_text (h c hc)
  rw [RuleBase.readLog, RuleBase.logLines_log h, b.clauses_eq, hread, Option.map_some,
    b.ofRows_rows]

/-! ## Names in compiled schemas -/

/-- No name of the schema has punctuation, in declarations or expressions. -/
def Schema.Plain (s : Schema) : Prop := ∀ n ∈ s.names, IsPlain n

/-- The names of the schema language are plain. -/
theorem Language.IsName.isPlain {n : String} (h : Language.IsName n) : IsPlain n := by
  obtain ⟨c, cs, htext, hc, hcs⟩ := h
  rw [IsPlain, htext, List.all_cons, Bool.and_eq_true]
  refine ⟨by simp [isNameChar, hc], List.all_eq_true.mpr fun d hd => ?_⟩
  rcases hcs d hd with hd | hd | rfl
  · simp [isNameChar, hd]
  · simp [isNameChar, hd]
  · rfl

theorem Schema.Writable.plain {s : Schema} (h : s.Writable) : s.Plain :=
  fun n hn => (h.names n hn).isPlain

/-- Synthesized names of plain names are plain. -/
theorem IsPlain.operandName {d : String} (h : IsPlain d) (i : Nat) : IsPlain (operandName d i) := by
  rw [IsPlain, operandName_toList, List.all_append, Bool.and_eq_true]
  refine ⟨h, List.all_eq_true.mpr fun c hc => ?_⟩
  rcases List.mem_cons.mp hc with rfl | hc
  · rfl
  · have hdigit := Nat.isDigit_of_mem_toDigits (by decide) (by decide) hc
    simp [isNameChar, hdigit]

theorem Expr.names_subset_allNames {e : Expr} {es : List Expr} (h : e ∈ es) :
    e.names ⊆ Expr.allNames es := by
  induction es with
  | nil => cases h
  | cons f fs ih =>
      rw [Expr.allNames]
      rcases List.mem_cons.mp h with rfl | h
      · exact List.subset_append_left _ _
      · exact List.Subset.trans (ih h) (List.subset_append_right _ _)

/-- A part is derived under a plain name and has plain names, if the whole is and has. -/
theorem Expr.Expands.isPlain {d d' : String} {e x : Expr} {π : List Turn} (h : e.Expands d π d' x)
    (hd : IsPlain d) (he : ∀ n ∈ e.names, IsPlain n) :
    IsPlain d' ∧ ∀ n ∈ x.names, IsPlain n := by
  induction h with
  | here => exact ⟨hd, he⟩
  | union hi _ ih =>
      exact ih hd fun n hn => he n (Expr.names_subset_allNames (List.mem_of_getElem? hi) hn)
  | meet hi _ _ ih =>
      exact ih (hd.operandName _) fun n hn =>
        he n (Expr.names_subset_allNames (List.mem_of_getElem? hi) hn)

theorem Expr.isPlain_operandIdentity {d : String} {e : Expr} (hd : IsPlain d)
    (he : ∀ n ∈ e.names, IsPlain n) (i : Nat) : IsPlain (e.operandIdentity d i) := by
  rcases e.isComposite_or_name with hcomposite | ⟨source, rfl⟩
  · rw [Expr.operandIdentity_of_isComposite hcomposite]
    exact hd.operandName i
  · exact he source (by simp [Expr.names])

section Plain

variable {s : Schema} {t : ObjectType}

theorem Schema.Plain.type (h : s.Plain) (ht : t ∈ s.types) : ∀ n ∈ t.names, IsPlain n :=
  fun n hn => h n (List.mem_flatMap.mpr ⟨t, ht, hn⟩)

theorem Schema.Plain.relation (h : s.Plain) (ht : t ∈ s.types) {r : Relation}
    (hr : r ∈ t.relations) : IsPlain r.name ∧ ∀ u ∈ r.subjects, ∀ n ∈ u.names, IsPlain n := by
  have hnames : ∀ n ∈ r.names, IsPlain n := fun n hn => h.type ht n
    (List.mem_cons_of_mem _ (List.mem_append_left _ (List.mem_flatMap.mpr ⟨r, hr, hn⟩)))
  refine ⟨hnames _ List.mem_cons_self, fun u hu n hn => hnames n ?_⟩
  exact List.mem_cons_of_mem _ (List.mem_flatMap.mpr ⟨u, hu, hn⟩)

theorem Schema.Plain.permission (h : s.Plain) (ht : t ∈ s.types) {p : Permission}
    (hp : p ∈ t.permissions) : IsPlain p.name ∧ ∀ n ∈ p.expr.names, IsPlain n := by
  have hnames : ∀ n ∈ p.names, IsPlain n := fun n hn => h.type ht n
    (List.mem_cons_of_mem _ (List.mem_append_right _ (List.mem_flatMap.mpr ⟨p, hp, hn⟩)))
  exact ⟨hnames _ List.mem_cons_self, fun n hn => hnames n (List.mem_cons_of_mem _ hn)⟩

/-- The parts of permissions have plain names. -/
theorem Schema.Plain.expands (h : s.Plain) {d : String} {e : Expr} (he : s.Expands t d e) :
    t ∈ s.types ∧ IsPlain t.name ∧ IsPlain d ∧ ∀ n ∈ e.names, IsPlain n := by
  obtain ⟨m, p, π, hfind, hpart⟩ := he
  obtain ⟨ht, _, hp, _⟩ := Schema.of_find_permission hfind
  obtain ⟨hname, hnames⟩ := h.permission ht hp
  exact ⟨ht, h.type ht _ List.mem_cons_self, hpart.isPlain hname hnames⟩

/-- Restrictions have plain names. -/
theorem Schema.Plain.restrictions (h : s.Plain) {r : Restriction} (hr : r ∈ s.restrictions) :
    ∀ n ∈ (Clause.restriction r).names, IsPlain n := by
  obtain ⟨t, ht, hr⟩ := List.mem_flatMap.mp (s.restrictions_perm.mem_iff.mp hr)
  obtain ⟨q, hq, hr⟩ := List.mem_flatMap.mp hr
  obtain ⟨u, hu, rfl⟩ := List.mem_map.mp hr
  obtain ⟨hrelation, hsubjects⟩ := h.relation ht hq
  intro n hn
  simp only [Clause.names, List.cons_append, List.nil_append, List.mem_cons] at hn
  rcases hn with rfl | rfl | hn
  · exact h.type ht _ List.mem_cons_self
  · exact hrelation
  · exact hsubjects u hu n hn

/-- Unary rules of parts have plain names. -/
theorem Schema.Plain.unary (h : s.Plain) {d : String} {e : Expr} {r : UnaryRule}
    (he : s.Expands t d e) (hr : e.Takes t d (.copy r)) :
    ∀ n ∈ (Clause.unary r).names, IsPlain n := by
  obtain ⟨_, htype, hd, hnames⟩ := h.expands he
  cases hr with
  | copy => simpa [Clause.names, Expr.names, htype, hd] using hnames

/-- Binary rules of parts have plain names, also where an operand has a synthesized one. -/
theorem Schema.Plain.binary (h : s.Plain) {d : String} {e : Expr} {r : BinaryRule}
    (he : s.Expands t d e) (hr : e.Takes t d (.hop r) ∨ e.Takes t d (.meet r)) :
    ∀ n ∈ (Clause.binary r).names, IsPlain n := by
  obtain ⟨ht, htype, hd, hnames⟩ := h.expands he
  rcases hr with hr | hr
  · cases hr with
    | hop hbase hu =>
        have hsubject := (h.relation ht (List.mem_of_find?_eq_some hbase)).2 _ hu _
          List.mem_cons_self
        simp only [Expr.names, List.forall_mem_cons] at hnames
        simp [Clause.names, htype, hd, hsubject, hnames]
  · cases hr with
    | meet =>
        have hleft : ∀ i, IsPlain (Expr.operandIdentity d i _) := Expr.isPlain_operandIdentity hd
          fun n hn => hnames n (Expr.names_subset_allNames List.mem_cons_self hn)
        have hright : ∀ i, IsPlain (Expr.operandIdentity d i _) := Expr.isPlain_operandIdentity hd
          fun n hn => hnames n
            (Expr.names_subset_allNames (List.mem_cons_of_mem _ List.mem_cons_self) hn)
        simp [Clause.names, htype, hd, hleft 0, hright 1]

/-- A schema with plain names is compiled into rows with plain names. -/
theorem Schema.Plain.rows_of_compile (h : s.Plain) {recursive : Bool} {b : RuleBase}
    (hb : s.compile recursive = .ok b) : b.Plain := by
  have hrestrictions := Schema.restrictions_of_compile hb
  obtain ⟨order, horder, rfl⟩ := Schema.emission_of_compile hb
  have hemits := Schema.emission_emits horder
  intro c hc
  rcases List.mem_append.mp hc with hc | hc
  · rcases List.mem_append.mp hc with hc | hc
    · obtain ⟨r, hr, rfl⟩ := List.mem_map.mp hc
      exact h.restrictions (hrestrictions ▸ hr)
    · obtain ⟨r, hr, rfl⟩ := List.mem_map.mp hc
      obtain ⟨t, d, e, he, htakes⟩ := hemits.mem_unary_iff.mp hr
      exact h.unary he htakes
  · obtain ⟨r, hr, rfl⟩ := List.mem_map.mp hc
    obtain ⟨t, d, e, he, htakes⟩ := hemits.mem_binary_iff.mp hr
    exact h.binary he htakes

end Plain

/-- The logs of two schemas that are read from texts and compiled, with recursion or without, are
equal only if the rule bases are.  A log has a line for each row, and each line tells its row. -/
theorem RuleBase.log_lossless {text text' : String} {s s' : Schema} {recursive recursive' : Bool}
    {b b' : RuleBase} (hs : Language.readSchema text = .ok s)
    (hs' : Language.readSchema text' = .ok s') (hb : s.compile recursive = .ok b)
    (hb' : s'.compile recursive' = .ok b') :
    (b.render .log = b'.render .log ↔ b = b') ∧
      logLines (b.render .log) = b.rows.map Clause.text ∧
      (logLines (b.render .log)).length = b.size ∧
      (b.render .log = "" ↔ b.size = 0) ∧
      ∀ c ∈ b.rows, Clause.read c.text = some c := by
  have hplain := (Language.rendering_of_readSchema hs).1.plain.rows_of_compile hb
  have hplain' := (Language.rendering_of_readSchema hs').1.plain.rows_of_compile hb'
  have hlines : logLines b.log = b.rows.map Clause.text :=
    (RuleBase.logLines_log hplain).trans b.clauses_eq
  have hlength : (logLines b.log).length = b.size := by
    rw [hlines, List.length_map, b.length_rows]
  refine ⟨⟨fun h => ?_, fun h => h ▸ rfl⟩, hlines, hlength, ⟨fun h => ?_, fun h => ?_⟩,
    fun c hc => Clause.read_text (hplain c hc)⟩
  · have hread := RuleBase.readLog_log hplain
    rw [show b.log = b'.log from h, RuleBase.readLog_log hplain'] at hread
    exact (Option.some.inj hread).symm
  · rw [← hlength, show b.log = "" from h]
    rfl
  · have hrows : b.rows = [] := List.eq_nil_of_length_eq_zero (b.length_rows.trans h)
    simp [RuleBase.render, RuleBase.log, b.clauses_eq, hrows]

set_option maxRecDepth 2000 in
/-- Nested folders with recursion, and a lone relation without: their logs differ, and the lines of
the first are the clauses of its rows. -/
theorem nestedFolders_log_lines :
    nestedFolders.compile true = .ok nestedFolderRules ∧
      nestedFolderRules.render .log ≠ "p(f, f)" ∧
      logLines (nestedFolderRules.render .log) =
        ["a(u, f)", "p(f, f)", "v(u, f)", "f#w$1(subject, f) :- f#v(subject, f)",
          "f#w$1(subject, f) :- f#w(subject, f), f#p(f, f)",
          "f#w(subject, f) :- f#a(subject, f), f#w$1(f, f)"] := by
  have hs : Language.readSchema "definition f \x7b relation p: f \x7d" =
      .ok ⟨[⟨"f", [⟨"p", [⟨"f", none⟩]⟩], []⟩]⟩ := by cbv
  have hb : nestedFolders.compile true = .ok nestedFolderRules := by cbv
  have hb' : Schema.compile ⟨[⟨"f", [⟨"p", [⟨"f", none⟩]⟩], []⟩]⟩ =
      .ok ⟨[⟨"f", "p", "f", none⟩], [], []⟩ := by cbv
  obtain ⟨heq, hlines, _⟩ := RuleBase.log_lossless readSchema_nestedFolders hs hb hb'
  refine ⟨hb, fun h => ?_, hlines.trans rfl⟩
  exact absurd (heq.mp h) (by decide)

end Rebac
