import Mathlib.Data.List.DropRight
import Mathlib.Data.List.Flatten
import Rebac.Json.Reader
import Rebac.Proofs.JsonStrings

/-!
# JSON texts

A JSON value is a tree.  Its text is the sequence of its tokens, with white space before any of them
and after the last one.  Nothing here reads a text: `Tree.tokens` writes a tree down, and `Scans`
says that a text starts with some tokens.

The leaves of a tree keep what stands in the text, so that a value with its numbers and strings as
they are written is one tree.
-/

namespace Rebac.Json

open Text (isDigit)

/-! ## Numbers and words -/

/-- Digits, at least one. -/
def IsDigits (ds : List Char) : Prop := ds ≠ [] ∧ ∀ d ∈ ds, isDigit d

/-- The whole part of a number, where only zero itself starts with a zero. -/
def IsWhole (ds : List Char) : Prop := IsDigits ds ∧ (ds.head? = some '0' → ds = ['0'])

/-- The fraction of a number, if there is one. -/
inductive IsFraction : List Char → Prop where
  | absent : IsFraction []
  | given {ds : List Char} : IsDigits ds → IsFraction ('.' :: ds)

/-- The exponent of a number, if there is one. -/
inductive IsExponent : List Char → Prop where
  | absent : IsExponent []
  | given {e : Char} {sign ds : List Char} : e = 'e' ∨ e = 'E' →
      sign = [] ∨ sign = ['+'] ∨ sign = ['-'] → IsDigits ds → IsExponent (e :: (sign ++ ds))

/-- A number without a sign. -/
def IsNumber (text : List Char) : Prop :=
  ∃ whole fraction exponent, IsWhole whole ∧ IsFraction fraction ∧ IsExponent exponent ∧
    text = whole ++ (fraction ++ exponent)

/-- A word or a number. -/
inductive IsScalar : List Char → Prop where
  | null : IsScalar ['n', 'u', 'l', 'l']
  | true : IsScalar ['t', 'r', 'u', 'e']
  | false : IsScalar ['f', 'a', 'l', 's', 'e']
  | number {text : List Char} : IsNumber text → IsScalar text
  | negative {text : List Char} : IsNumber text → IsScalar ('-' :: text)

/-! ## Trees -/

/-- A word or a number as it stands in a text. -/
structure Scalar where
  text : List Char
  valid : IsScalar text

/-- The body of a string as it stands in a text. -/
structure Body where
  chars : List Char
  valid : IsBody chars

/-- A JSON value.  The members of an object are in the order of the text. -/
inductive Tree where
  | scalar (s : Scalar)
  | string (body : Body)
  | array (items : List Tree)
  | object (members : List (Body × Tree))

/-- The string that a body spells. -/
def Body.Spells (b : Body) (s : String) : Prop := Json.Spells b.chars s.toList

/-- The token of a string, with its quotation marks. -/
def Body.token (b : Body) : List Char := '"' :: (b.chars ++ ['"'])

/-- The comma before any item but the first. -/
def separator (first : Bool) : List (List Char) := if first then [] else [[',']]

mutual

/-- The tokens of a tree. -/
def Tree.tokens : Tree → List (List Char)
  | .scalar s => [s.text]
  | .string b => [b.token]
  | .array vs => ['['] :: (itemTokens true vs ++ [[']']])
  | .object ms => ['\x7b'] :: (memberTokens true ms ++ [['\x7d']])

/-- The tokens of the items of an array. -/
def itemTokens (first : Bool) : List Tree → List (List Char)
  | [] => []
  | v :: vs => separator first ++ (v.tokens ++ itemTokens false vs)

/-- The tokens of the members of an object. -/
def memberTokens (first : Bool) : List (Body × Tree) → List (List Char)
  | [] => []
  | (k, v) :: ms => separator first ++ (k.token :: [':'] :: (v.tokens ++ memberTokens false ms))

end

mutual

/-- How deep arrays and objects nest. -/
def Tree.depth : Tree → Nat
  | .scalar _ | .string _ => 0
  | .array vs => itemDepth vs + 1
  | .object ms => memberDepth ms + 1

/-- How deep the items of an array nest. -/
def itemDepth : List Tree → Nat
  | [] => 0
  | v :: vs => max v.depth (itemDepth vs)

/-- How deep the values of an object nest. -/
def memberDepth : List (Body × Tree) → Nat
  | [] => 0
  | (_, v) :: ms => max v.depth (memberDepth ms)

end

/-- Induction over trees, with the hypothesis for every item and every member. -/
theorem Tree.induction {P : Tree → Prop} (scalar : ∀ s, P (.scalar s))
    (string : ∀ b, P (.string b)) (array : ∀ vs, (∀ v ∈ vs, P v) → P (.array vs))
    (object : ∀ ms, (∀ m ∈ ms, P m.2) → P (.object ms)) (v : Tree) : P v :=
  @Tree.rec P (fun vs => ∀ v ∈ vs, P v) (fun ms => ∀ m ∈ ms, P m.2) (fun m => P m.2)
    scalar string array object (by simp)
    (fun _ _ hv hvs => List.forall_mem_cons.mpr ⟨hv, hvs⟩) (by simp)
    (fun _ _ hm hms => List.forall_mem_cons.mpr ⟨hm, hms⟩) (fun _ _ hv => hv) v

/-! ## Texts -/

/-- The text starts with the tokens, with white space before each, and the rest follows. -/
inductive Scans : List (List Char) → List Char → List Char → Prop where
  | nil {rest : List Char} : Scans [] rest rest
  | cons {blanks t text rest : List Char} {ts : List (List Char)} :
      (∀ c ∈ blanks, isBlank c) → Scans ts text rest → Scans (t :: ts) (blanks ++ (t ++ text)) rest

/-- The text is that of the tree. -/
def Tree.IsText (v : Tree) (text : String) : Prop :=
  ∃ rest, Scans v.tokens text.toList rest ∧ ∀ c ∈ rest, isBlank c

/-! ## White space -/

/-- A text is some white space and what is left after it. -/
theorem exists_blanks (text : List Char) :
    ∃ blanks, (∀ c ∈ blanks, isBlank c) ∧ text = blanks ++ skipBlank text :=
  ⟨text.takeWhile isBlank, fun _ hc => List.mem_takeWhile_imp hc,
    List.takeWhile_append_dropWhile.symm⟩

theorem skipBlank_append {blanks : List Char} (hblanks : ∀ c ∈ blanks, isBlank c)
    (text : List Char) : skipBlank (blanks ++ text) = skipBlank text :=
  List.dropWhile_append_of_pos hblanks

theorem skipBlank_cons {c : Char} (hc : isBlank c = false) (text : List Char) :
    skipBlank (c :: text) = c :: text :=
  List.dropWhile_cons_of_neg (by simp [hc])

theorem skipBlank_skipBlank (text : List Char) : skipBlank (skipBlank text) = skipBlank text :=
  List.dropWhile_idempotent isBlank text

theorem length_skipBlank_le (text : List Char) : (skipBlank text).length ≤ text.length :=
  (List.dropWhile_sublist _).length_le

theorem length_lt_of_skipBlank {text rest : List Char} {c : Char}
    (h : skipBlank text = c :: rest) : rest.length < text.length := by
  have hlength := length_skipBlank_le text
  rw [h, List.length_cons] at hlength
  exact hlength

/-! ## Tokens in a row -/

theorem scans_nil {text rest : List Char} : Scans [] text rest ↔ text = rest := by
  constructor
  · intro h
    cases h
    rfl
  · intro h
    subst h
    exact .nil

/-- Tokens in a row are scanned one part after the other. -/
theorem scans_append {ts us : List (List Char)} {text rest : List Char} :
    Scans (ts ++ us) text rest ↔ ∃ mid, Scans ts text mid ∧ Scans us mid rest := by
  induction ts generalizing text with
  | nil => simp [scans_nil]
  | cons t ts ih =>
      constructor
      · intro h
        cases h with
        | cons hblanks hrest =>
            obtain ⟨mid, hts, hus⟩ := ih.mp hrest
            exact ⟨mid, .cons hblanks hts, hus⟩
      · intro ⟨mid, hts, hus⟩
        cases hts with
        | cons hblanks hts => exact .cons hblanks (ih.mpr ⟨mid, hts, hus⟩)

/-- A token that starts with no white space is found after the white space. -/
theorem scans_cons {c : Char} (hc : isBlank c = false) {t : List Char} {ts : List (List Char)}
    {text rest : List Char} : Scans ((c :: t) :: ts) text rest ↔
      ∃ mid, skipBlank text = c :: (t ++ mid) ∧ Scans ts mid rest := by
  constructor
  · intro h
    cases h with
    | @cons blanks _ mid _ _ hblanks hts =>
        refine ⟨mid, ?_, hts⟩
        rw [skipBlank_append hblanks, List.cons_append, skipBlank_cons hc]
  · intro ⟨mid, htext, hts⟩
    obtain ⟨blanks, hblanks, heq⟩ := exists_blanks text
    rw [heq, htext]
    exact .cons hblanks hts

/-- A token of one character is found after the white space. -/
theorem scans_sign {c : Char} (hc : isBlank c = false) {ts : List (List Char)}
    {text rest : List Char} : Scans ([c] :: ts) text rest ↔
      ∃ mid, skipBlank text = c :: mid ∧ Scans ts mid rest := by
  simp [scans_cons hc]

/-- A string is found after the white space, between its quotation marks. -/
theorem scans_token {b : Body} {ts : List (List Char)} {text rest : List Char} :
    Scans (b.token :: ts) text rest ↔
      ∃ mid, skipBlank text = '"' :: (b.chars ++ '"' :: mid) ∧ Scans ts mid rest := by
  have hquote : isBlank '"' = false := rfl
  simp [Body.token, scans_cons hquote]

/-- White space before the first token may be left out. -/
theorem Scans.of_skipBlank {ts : List (List Char)} {text rest : List Char} (hts : ts ≠ [])
    (h : Scans ts (skipBlank text) rest) : Scans ts text rest := by
  obtain ⟨blanks, hblanks, htext⟩ := exists_blanks text
  generalize skipBlank text = after at h htext
  subst htext
  cases h with
  | nil => exact absurd rfl hts
  | cons hmore hrest =>
      rw [← List.append_assoc]
      exact .cons (List.forall_mem_append.mpr ⟨hblanks, hmore⟩) hrest

/-- White space before the first token does not matter to what is scanned. -/
theorem Scans.skipBlank {c : Char} (hc : isBlank c = false) {t : List Char}
    {ts : List (List Char)} {text rest : List Char} (h : Scans ((c :: t) :: ts) text rest) :
    Scans ((c :: t) :: ts) (skipBlank text) rest := by
  rw [scans_cons hc] at h ⊢
  rwa [skipBlank_skipBlank]

/-- Tokens and what follows them are taken from the text in order. -/
theorem Scans.sublist {ts : List (List Char)} {text rest : List Char} (h : Scans ts text rest) :
    (ts.flatten ++ rest).Sublist text := by
  induction h with
  | nil => exact .refl _
  | cons _ _ ih =>
      rw [List.flatten_cons, List.append_assoc]
      exact (ih.append_left _).trans (List.sublist_append_right _ _)

theorem Scans.length_flatten_le {ts : List (List Char)} {text rest : List Char}
    (h : Scans ts text rest) : ts.flatten.length + rest.length ≤ text.length := by
  rw [← List.length_append]
  exact h.sublist.length_le

theorem Scans.length_le {ts : List (List Char)} {text rest : List Char} (h : Scans ts text rest) :
    rest.length ≤ text.length :=
  (Nat.le_add_left _ _).trans h.length_flatten_le

/-! ## Where a value starts -/

/-- Whether a character is neither white space nor ends an item. -/
def isStart (c : Char) : Bool := !isBlank c && c != ',' && c != ']' && c != '\x7d'

theorem isBlank_of_isStart {c : Char} (h : isStart c) : isBlank c = false := by
  simp only [isStart, Bool.and_eq_true, Bool.not_eq_true'] at h
  exact h.1.1.1

/-- Two characters differ if one of them is in a class and the other one is not. -/
theorem ne_of_class {p : Char → Bool} {c d : Char} (hc : p c) (hd : p d = false) : c ≠ d := by
  intro heq
  simp [heq, hd] at hc

theorem isStart_of_isDigit {c : Char} (h : isDigit c) : isStart c := by
  by_contra hc
  simp only [isStart, isBlank, Bool.and_eq_true, Bool.not_eq_true', bne_iff_ne,
    decide_eq_false_iff_not, not_and_or, not_not] at hc
  rcases hc with (((rfl | rfl | rfl | rfl) | rfl) | rfl) | rfl
  all_goals exact absurd h (by decide)

theorem IsNumber.exists_head {text : List Char} (h : IsNumber text) :
    ∃ c rest, text = c :: rest ∧ isDigit c := by
  obtain ⟨whole, fraction, exponent, ⟨⟨hne, hdigits⟩, -⟩, -, -, rfl⟩ := h
  obtain ⟨c, ds, rfl⟩ := List.exists_cons_of_ne_nil hne
  exact ⟨c, _, rfl, hdigits c List.mem_cons_self⟩

/-- A scalar starts like a value and not like a list or an object. -/
theorem IsScalar.exists_start {text : List Char} (h : IsScalar text) :
    ∃ c rest, text = c :: rest ∧ isStart c ∧ c ≠ '[' ∧ c ≠ '\x7b' := by
  cases h with
  | null | true | false => exact ⟨_, _, rfl, by decide, by decide, by decide⟩
  | negative _ => exact ⟨_, _, rfl, by decide, by decide, by decide⟩
  | number h =>
      obtain ⟨c, rest, rfl, hc⟩ := h.exists_head
      exact ⟨c, rest, rfl, isStart_of_isDigit hc, ne_of_class hc rfl, ne_of_class hc rfl⟩

/-- The first token of a tree starts with no white space and with nothing that ends an item. -/
theorem Tree.exists_start (v : Tree) : ∃ c t ts, v.tokens = (c :: t) :: ts ∧ isStart c := by
  cases v with
  | scalar s =>
      obtain ⟨c, rest, htext, hc, -, -⟩ := s.valid.exists_start
      exact ⟨c, rest, [], by rw [Tree.tokens, htext], hc⟩
  | string b => exact ⟨'"', _, _, by rw [Tree.tokens, Body.token], by decide⟩
  | array vs => exact ⟨'[', _, _, by rw [Tree.tokens], by decide⟩
  | object ms => exact ⟨'\x7b', _, _, by rw [Tree.tokens], by decide⟩

/-! ## How deep a text nests -/

/-- Items nest as deep as the deepest of them. -/
theorem itemDepth_le {vs : List Tree} {n : Nat} : itemDepth vs ≤ n ↔ ∀ v ∈ vs, v.depth ≤ n := by
  induction vs with
  | nil => simp [itemDepth]
  | cons v vs ih => rw [itemDepth, Nat.max_le, ih, List.forall_mem_cons]

/-- Members nest as deep as the deepest of their values. -/
theorem memberDepth_le {ms : List (Body × Tree)} {n : Nat} :
    memberDepth ms ≤ n ↔ ∀ m ∈ ms, m.2.depth ≤ n := by
  induction ms with
  | nil => simp [memberDepth]
  | cons m ms ih => rw [memberDepth, Nat.max_le, ih, List.forall_mem_cons]

/-- The tokens of an item are some of those of all. -/
theorem sublist_itemTokens {vs : List Tree} {v : Tree} (h : v ∈ vs) (first : Bool) :
    v.tokens.Sublist (itemTokens first vs) := by
  induction vs generalizing first with
  | nil => cases h
  | cons w vs ih =>
      refine List.Sublist.trans ?_ (List.sublist_append_right _ _)
      rcases List.mem_cons.mp h with rfl | h
      · exact List.sublist_append_left _ _
      · exact (ih h false).trans (List.sublist_append_right _ _)

theorem sublist_memberTokens {ms : List (Body × Tree)} {m : Body × Tree} (h : m ∈ ms)
    (first : Bool) : m.2.tokens.Sublist (memberTokens first ms) := by
  induction ms generalizing first with
  | nil => cases h
  | cons w ms ih =>
      refine List.Sublist.trans (.cons _ (.cons _ ?_)) (List.sublist_append_right _ _)
      rcases List.mem_cons.mp h with rfl | h
      · exact List.sublist_append_left _ _
      · exact (ih h false).trans (List.sublist_append_right _ _)

/-- Whether a character opens an array or an object. -/
def isOpening (c : Char) : Bool := c == '[' || c == '\x7b'

/-- Each level of a tree is opened in its text. -/
theorem Tree.depth_le_countP (v : Tree) : v.depth ≤ v.tokens.flatten.countP isOpening := by
  induction v using Tree.induction with
  | scalar s => exact Nat.zero_le _
  | string b => exact Nat.zero_le _
  | array vs ih =>
      have hitems : itemDepth vs ≤ (itemTokens true vs).flatten.countP isOpening := by
        refine itemDepth_le.mpr fun v hv => ?_
        exact (ih v hv).trans (sublist_itemTokens hv true).flatten.countP_le
      simp only [Tree.depth, Tree.tokens, List.flatten_cons, List.flatten_append,
        List.countP_append]
      have hopening : ['['].countP isOpening = 1 := by decide
      omega
  | object ms ih =>
      have hmembers : memberDepth ms ≤ (memberTokens true ms).flatten.countP isOpening := by
        refine memberDepth_le.mpr fun m hm => ?_
        exact (ih m hm).trans (sublist_memberTokens hm true).flatten.countP_le
      simp only [Tree.depth, Tree.tokens, List.flatten_cons, List.flatten_append,
        List.countP_append]
      have hopening : ['\x7b'].countP isOpening = 1 := by decide
      omega

/-- So a tree nests no deeper than its text has opening brackets. -/
theorem Tree.depth_le_of_scans {v : Tree} {text rest : List Char} (h : Scans v.tokens text rest) :
    v.depth ≤ text.countP isOpening :=
  v.depth_le_countP.trans (((List.sublist_append_left _ _).trans h.sublist).countP_le)

/-- A tree takes a character at least. -/
theorem Tree.length_lt_of_scans {v : Tree} {text rest : List Char} (h : Scans v.tokens text rest) :
    rest.length < text.length := by
  obtain ⟨c, t, ts, hv, -⟩ := v.exists_start
  have hlength := h.length_flatten_le
  simp only [hv, List.flatten_cons, List.cons_append, List.length_cons] at hlength
  omega

end Rebac.Json
