import Mathlib.Data.List.Forall2
import Rebac.Proofs.JsonSkipping

/-!
# What the readers read

A shape says which trees write a value down.  There is one shape for each reader: strings, lists,
maps, records and choices.  `Reader.Reads` says that a reader reads exactly the trees of a shape:
whatever it reads stands there as such a tree, and it reads each such tree that does not nest too
deep.  The lemmas of this module carry this from the readers of the parts to the reader of the
whole.
-/

namespace Rebac.Json

/-! ## Shapes -/

/-- The tree is a string that spells `s`. -/
def IsString (s : String) (v : Tree) : Prop := ∃ b : Body, v = .string b ∧ b.Spells s

/-- The tree is an array with one item for each element. -/
def IsList {α : Type} (p : α → Tree → Prop) (xs : List α) (v : Tree) : Prop :=
  ∃ vs, v = .array vs ∧ List.Forall₂ p xs vs

/-- The entry is the member with its key spelled out. -/
def IsMember (e : String × Tree) (m : Body × Tree) : Prop := m.1.Spells e.1 ∧ m.2 = e.2

/-- The tree is an object with these entries in this order. -/
def Tree.IsObject (v : Tree) (es : List (String × Tree)) : Prop :=
  ∃ ms, v = .object ms ∧ List.Forall₂ IsMember es ms

/-- The tree is an object with one member for each entry, whose keys may be repeated. -/
def IsMap {α : Type} (p : α → Tree → Prop) (xs : List (String × α)) (v : Tree) : Prop :=
  ∃ es, v.IsObject es ∧ List.Forall₂ (fun x e => x.1 = e.1 ∧ p x.2 e.2) xs es

/-- The values under a key. -/
def valuesAt (key : String) (es : List (String × Tree)) : List Tree :=
  (es.filter (·.1 = key)).map Prod.snd

/-- The entries of a record.  As an object it has any members, and as an array it has the values of
the first fields in order. -/
def Tree.IsRecord (v : Tree) (names : List String) (es : List (String × Tree)) : Prop :=
  v.IsObject es ∨ ∃ vs, v = .array vs ∧ vs.length ≤ names.length ∧ es = names.zip vs

/-- The tree is a record that has the fields of these names at most once, with these values. -/
def Tree.Gives (v : Tree) (names : List String) (values : List (Option Tree)) : Prop :=
  ∃ es, v.IsRecord names es ∧
    List.Forall₂ (fun name value => valuesAt name es = value.toList) names values

/-- The value of a field, or what holds if the field is left out. -/
def Filled (absent : Prop) (p : Tree → Prop) : Option Tree → Prop
  | some v => p v
  | none => absent

/-- The tree is an object with one member, the name of a variant and its content. -/
def IsChoice (p : String → Tree → Prop) (v : Tree) : Prop :=
  ∃ name content, v.IsObject [(name, content)] ∧ p name content

/-- The reader reads exactly the trees of the shape, up to some level. -/
structure Reader.Reads {α : Type} (r : Reader α) (n : Nat) (p : α → Tree → Prop) : Prop where
  sound {levels : Nat} {text rest : List Char} {x : α} :
    r levels text = .ok (x, rest) → ∃ v, p x v ∧ Scans v.tokens text rest
  complete {levels : Nat} {text rest : List Char} {x : α} {v : Tree} :
    p x v → Scans v.tokens text rest → v.depth ≤ levels → levels < n →
      r levels text = .ok (x, rest)

section

variable {α β : Type} {r : Reader α} {m n : Nat} {p q : α → Tree → Prop}

/-- What is read up to some level is read up to each lower one. -/
theorem Reader.Reads.mono (h : r.Reads n p) (hmn : m ≤ n) : r.Reads m p :=
  ⟨h.sound, fun hv hscans hdepth hlevels => h.complete hv hscans hdepth (by omega)⟩

theorem Reader.Reads.congr (h : r.Reads n p) (hpq : ∀ x v, p x v ↔ q x v) : r.Reads n q := by
  have heq : p = q := funext fun x => funext fun v => propext (hpq x v)
  exact heq ▸ h

/-- Changing what a reader returns changes the values of its shape. -/
theorem Reader.Reads.apply (h : r.Reads n p) (f : α → β) :
    (r.apply f).Reads n fun y v => ∃ x, p x v ∧ y = f x := by
  constructor
  · intro levels text rest y hread
    obtain ⟨⟨x, after⟩, hx, hy⟩ := Language.bind_eq_ok_iff.mp hread
    obtain ⟨v, hv, hscans⟩ := h.sound hx
    cases hy
    exact ⟨v, ⟨x, hv, rfl⟩, hscans⟩
  · intro levels text rest y v hv hscans hdepth hlevels
    obtain ⟨x, hv, rfl⟩ := hv
    exact Language.bind_eq_ok_iff.mpr ⟨(x, rest), h.complete hv hscans hdepth hlevels, rfl⟩

end

/-! ## Strings -/

/-- A string is read exactly if its body spells the characters. -/
theorem readString_eq_ok_iff {text rest : List Char} {s : String} :
    readString text = .ok (s, rest) ↔
      ∃ b : Body, b.Spells s ∧ text = b.chars ++ '"' :: rest := by
  constructor
  · intro h
    obtain ⟨⟨cs, after⟩, hchars, heq⟩ := Language.bind_eq_ok_iff.mp h
    obtain ⟨body, hbody, htext⟩ := readChars_eq_ok_iff.mp hchars
    cases heq
    refine ⟨⟨body, hbody.isBody⟩, ?_, htext⟩
    rw [Body.Spells, String.toList_ofList]
    exact hbody
  · intro ⟨b, hb, htext⟩
    refine Language.bind_eq_ok_iff.mpr ⟨(s.toList, rest), ?_, ?_⟩
    · exact readChars_eq_ok_iff.mpr ⟨b.chars, hb, htext⟩
    · simp

/-- Strings are read from the trees that spell them, at any level. -/
theorem Reader.string_reads (n : Nat) : Reader.string.Reads n IsString := by
  constructor
  · intro levels text rest s h
    rw [Reader.string] at h
    split at h
    · rename_i mid htext
      obtain ⟨b, hb, rfl⟩ := readString_eq_ok_iff.mp h
      refine ⟨.string b, ⟨b, rfl, hb⟩, ?_⟩
      rw [Tree.tokens]
      exact scans_token.mpr ⟨rest, htext, .nil⟩
    · cases h
  · intro levels text rest s v hv hscans _ _
    obtain ⟨b, rfl, hb⟩ := hv
    rw [Tree.tokens] at hscans
    obtain ⟨mid, htext, hmid⟩ := scans_token.mp hscans
    rw [scans_nil] at hmid
    subst hmid
    rw [Reader.string, htext]
    exact readString_eq_ok_iff.mpr ⟨b, hb, rfl⟩

/-! ## Items -/

theorem nextItem_none {first : Bool} {text : List Char} :
    nextItem first text = .ok none ↔ ∃ rest, skipBlank text = ']' :: rest := by
  rw [nextItem]
  split
  · simp_all
  · simp_all
  · rename_i c rest hc htext
    have hne : ∀ after, skipBlank text ≠ ']' :: after := by
      intro after heq
      rw [htext] at heq
      exact hc (List.cons.inj heq).1
    simp only [hne, exists_false, iff_false]
    split
    · simp
    · split
      · split <;> simp
      · simp

/-- Before an item stands its comma. -/
theorem scans_of_nextItem {first : Bool} {text after rest : List Char}
    (h : nextItem first text = .ok (some after)) {ts : List (List Char)} (hts : ts ≠ [])
    (hscans : Scans ts after rest) : Scans (separator first ++ ts) text rest := by
  rw [nextItem] at h
  split at h
  · cases h
  · cases h
  · rename_i c tail _ htext
    split at h
    · rename_i hfirst
      cases h
      rw [hfirst]
      exact Scans.of_skipBlank hts (htext ▸ hscans)
    · rename_i hfirst
      split at h
      · rename_i hc
        have hcomma : isBlank ',' = false := rfl
        have hsome : skipBlank tail = after := by
          split at h
          · cases h
          · cases h
          · cases h
            rfl
        rw [Bool.of_not_eq_true hfirst]
        refine (scans_sign hcomma).mpr ⟨tail, by rw [htext, hc], ?_⟩
        exact Scans.of_skipBlank hts (hsome ▸ hscans)
      · cases h

/-- After its comma an item is found, and no text is added on the way. -/
theorem nextItem_of_scans {first : Bool} {v : Tree} {ts : List (List Char)} {text rest : List Char}
    (h : Scans (separator first ++ (v.tokens ++ ts)) text rest) :
    ∃ after, nextItem first text = .ok (some after) ∧ Scans (v.tokens ++ ts) after rest ∧
      after.length ≤ text.length := by
  obtain ⟨c, t, us, htokens, hc⟩ := v.exists_start
  have hblank := isBlank_of_isStart hc
  have hclosing : c ≠ ']' := ne_of_class hc rfl
  rw [htokens, List.cons_append] at h ⊢
  cases first with
  | true =>
      change Scans ((c :: t) :: (us ++ ts)) text rest at h
      obtain ⟨mid, htext, -⟩ := (scans_cons hblank).mp h
      refine ⟨skipBlank text, ?_, h.skipBlank hblank, length_skipBlank_le text⟩
      rw [nextItem, htext]
      simp
  | false =>
      have hcomma : isBlank ',' = false := rfl
      change Scans ([','] :: (c :: t) :: (us ++ ts)) text rest at h
      obtain ⟨tail, htext, hmore⟩ := (scans_sign hcomma).mp h
      obtain ⟨mid, htail, -⟩ := (scans_cons hblank).mp hmore
      have hlength := (length_skipBlank_le tail).trans (length_lt_of_skipBlank htext).le
      refine ⟨skipBlank tail, ?_, hmore.skipBlank hblank, hlength⟩
      rw [nextItem, htext]
      simp [htail, hclosing]

theorem readListEnd_eq_ok_iff {text rest : List Char} :
    readListEnd text = .ok rest ↔ Scans [[']']] text rest := by
  have hclosing : isBlank ']' = false := rfl
  simp only [scans_sign hclosing, scans_nil, exists_eq_right]
  rw [readListEnd]
  split
  · simp_all
  · simp_all
  · split <;> simp_all
  · simp_all

section Lists

variable {α : Type} {item : Reader α} {p : α → Tree → Prop} {m : Nat}

/-- The items that are read stand in the text, with a comma between them and a bracket at the end.
-/
theorem items_sound (h : item.Reads m p) {levels n : Nat} {first : Bool} {text rest : List Char}
    {xs : List α} (hread : items item levels n first text = .ok (xs, rest)) :
    ∃ vs, List.Forall₂ p xs vs ∧ Scans (itemTokens first vs ++ [[']']]) text rest := by
  induction n generalizing first text xs with
  | zero => cases hread
  | succ n ih =>
      rw [items] at hread
      obtain ⟨next, hnext, hread⟩ := Language.bind_eq_ok_iff.mp hread
      cases next with
      | none =>
          obtain ⟨after, hend, heq⟩ := Language.bind_eq_ok_iff.mp hread
          cases heq
          exact ⟨[], .nil, readListEnd_eq_ok_iff.mp hend⟩
      | some text' =>
          obtain ⟨⟨x, after⟩, hx, hread⟩ := Language.bind_eq_ok_iff.mp hread
          obtain ⟨⟨xs, last⟩, hxs, heq⟩ := Language.bind_eq_ok_iff.mp hread
          cases heq
          obtain ⟨v, hv, hvscans⟩ := h.sound hx
          obtain ⟨vs, hvs, hscans⟩ := ih hxs
          refine ⟨v :: vs, .cons hv hvs, ?_⟩
          have htokens :=
            scans_of_nextItem hnext (by simp) (scans_append.mpr ⟨after, hvscans, hscans⟩)
          simpa [itemTokens] using htokens

/-- Items that stand in the text are read to the closing bracket.  The count of steps suffices,
since each item takes a character at least. -/
theorem items_complete (h : item.Reads m p) {levels : Nat} (hlevels : levels < m) {xs : List α}
    {vs : List Tree} (hvs : List.Forall₂ p xs vs) (hdepth : ∀ v ∈ vs, v.depth ≤ levels) {n : Nat}
    {first : Bool} {text rest : List Char} (hn : text.length < n)
    (hscans : Scans (itemTokens first vs ++ [[']']]) text rest) :
    items item levels n first text = .ok (xs, rest) := by
  induction hvs generalizing n first text with
  | nil =>
      obtain ⟨n, rfl⟩ : ∃ k, n = k + 1 := ⟨n - 1, by omega⟩
      have hend : Scans [[']']] text rest := by simpa [itemTokens] using hscans
      have hclosing : isBlank ']' = false := rfl
      obtain ⟨after, htext, -⟩ := (scans_sign hclosing).mp hend
      rw [items]
      exact Language.bind_eq_ok_iff.mpr ⟨none, nextItem_none.mpr ⟨after, htext⟩,
        Language.bind_eq_ok_iff.mpr ⟨rest, readListEnd_eq_ok_iff.mpr hend, rfl⟩⟩
  | @cons x v xs vs hv _ ih =>
      obtain ⟨n, rfl⟩ : ∃ k, n = k + 1 := ⟨n - 1, by omega⟩
      obtain ⟨hv_depth, hvs_depth⟩ := List.forall_mem_cons.mp hdepth
      have hcell : Scans (separator first ++ (v.tokens ++ (itemTokens false vs ++ [[']']])))
          text rest := by simpa [itemTokens] using hscans
      obtain ⟨after, hnext, hafter, hlength⟩ := nextItem_of_scans hcell
      obtain ⟨mid, hvscans, hmid⟩ := scans_append.mp hafter
      -- The item takes a character at least, so the bound on the items is not used up.
      have hshort := Tree.length_lt_of_scans hvscans
      have hread : items item levels n false mid = .ok (xs, rest) :=
        ih hvs_depth (by omega) hmid
      rw [items]
      exact Language.bind_eq_ok_iff.mpr ⟨some after, hnext,
        Language.bind_eq_ok_iff.mpr ⟨(x, mid), h.complete hv hvscans hv_depth hlevels,
          Language.bind_eq_ok_iff.mpr ⟨(xs, rest), hread, rfl⟩⟩⟩

/-- A list is read one level further than its items. -/
theorem Reader.list_reads (h : item.Reads m p) : (Reader.list item).Reads (m + 1) (IsList p) := by
  have hopening : isBlank '[' = false := rfl
  constructor
  · intro levels text rest xs hread
    rw [Reader.list] at hread
    split at hread
    · rename_i mid htext
      obtain ⟨inner, _, hitems⟩ := Language.bind_eq_ok_iff.mp hread
      obtain ⟨vs, hvs, hscans⟩ := items_sound h hitems
      refine ⟨.array vs, ⟨vs, rfl, hvs⟩, ?_⟩
      rw [Tree.tokens]
      exact (scans_sign hopening).mpr ⟨mid, htext, hscans⟩
    · cases hread
  · intro levels text rest xs v hv hscans hdepth hlevels
    obtain ⟨vs, rfl, hvs⟩ := hv
    rw [Tree.tokens, scans_sign hopening] at hscans
    obtain ⟨mid, htext, hmid⟩ := hscans
    rw [Tree.depth] at hdepth
    obtain ⟨inner, rfl⟩ : ∃ k, levels = k + 1 := ⟨levels - 1, by omega⟩
    rw [Reader.list, htext]
    refine Language.bind_eq_ok_iff.mpr ⟨inner, rfl, ?_⟩
    exact items_complete h (by omega) hvs (itemDepth_le.mp (by omega)) (by omega) hmid

end Lists

/-! ## Keys -/

/-- A key is a string, after a comma unless it is the first, and no key is left at the end. -/
theorem of_nextKey {first : Bool} {text rest : List Char} {key : Option String}
    (h : nextKey first text = .ok (key, rest)) :
    (key = none ∧ Scans [['\x7d']] text rest) ∨ ∃ s, key = some s ∧
      ∃ k : Body, k.Spells s ∧ Scans (separator first ++ [k.token]) text rest := by
  have hstring : ∀ {mid tail : List Char}, skipBlank mid = '"' :: tail →
      (do let r ← readString tail; .ok (some r.1, r.2)) = Except.ok (key, rest) →
      ∃ s, key = some s ∧ ∃ k : Body, k.Spells s ∧ Scans [k.token] mid rest := by
    intro mid tail hmid hread
    obtain ⟨⟨s, after⟩, hs, heq⟩ := Language.bind_eq_ok_iff.mp hread
    cases heq
    obtain ⟨k, hk, rfl⟩ := readString_eq_ok_iff.mp hs
    exact ⟨s, rfl, k, hk, scans_token.mpr ⟨after, hmid, .nil⟩⟩
  have hclosing : isBlank '\x7d' = false := rfl
  have hcomma : isBlank ',' = false := rfl
  rw [nextKey] at h
  split at h
  · cases h
  · rename_i tail htext
    cases h
    exact .inl ⟨rfl, (scans_sign hclosing).mpr ⟨rest, htext, .nil⟩⟩
  · rename_i tail htext
    split at h
    · rename_i hfirst
      rw [hfirst]
      exact .inr (hstring htext h)
    · cases h
  · rename_i c tail _ _ htext
    split at h
    · cases h
    · rename_i hfirst
      split at h
      · rename_i hc
        split at h
        · cases h
        · rename_i after hafter
          obtain ⟨s, hs, k, hk, hscans⟩ := hstring hafter h
          refine .inr ⟨s, hs, k, hk, ?_⟩
          rw [Bool.of_not_eq_true hfirst]
          exact (scans_sign hcomma).mpr ⟨tail, by rw [htext, hc], hscans⟩
        · cases h
        · cases h
      · cases h

theorem nextKey_of_end {first : Bool} {text rest : List Char} (h : Scans [['\x7d']] text rest) :
    nextKey first text = .ok (none, rest) := by
  have hclosing : isBlank '\x7d' = false := rfl
  obtain ⟨mid, htext, hmid⟩ := (scans_sign hclosing).mp h
  rw [scans_nil] at hmid
  subst hmid
  rw [nextKey, htext]
  rfl

/-- A body that spells a key is read as the key. -/
theorem nextKey_of_token {first : Bool} {k : Body} {s : String} (hk : k.Spells s)
    {text rest : List Char} (h : Scans (separator first ++ [k.token]) text rest) :
    nextKey first text = .ok (some s, rest) := by
  have hread : readString (k.chars ++ '"' :: rest) = .ok (s, rest) :=
    readString_eq_ok_iff.mpr ⟨k, hk, rfl⟩
  cases first with
  | true =>
      obtain ⟨mid, htext, hmid⟩ := scans_token.mp h
      rw [scans_nil] at hmid
      subst hmid
      rw [nextKey, htext]
      exact Language.bind_eq_ok_iff.mpr ⟨(s, mid), hread, rfl⟩
  | false =>
      have hcomma : isBlank ',' = false := rfl
      change Scans [[','], k.token] text rest at h
      obtain ⟨tail, htext, htail⟩ := (scans_sign hcomma).mp h
      obtain ⟨mid, hquote, hmid⟩ := scans_token.mp htail
      rw [scans_nil] at hmid
      subst hmid
      rw [nextKey, htext]
      simp [hquote, hread, bind, Except.bind]

/-! ## Members -/

/-- A key, its colon and a value make a member. -/
theorem scans_of_nextKey {first : Bool} {text after mid : List Char} {s : String}
    (hkey : nextKey first text = .ok (some s, after)) (hcolon : readColon after = .ok mid) :
    ∃ k : Body, k.Spells s ∧ ∀ {ts : List (List Char)} {rest : List Char}, Scans ts mid rest →
      Scans (separator first ++ (k.token :: [':'] :: ts)) text rest := by
  rcases of_nextKey hkey with ⟨hnone, -⟩ | ⟨s', hs', k, hk, hscans⟩
  · cases hnone
  · cases hs'
    refine ⟨k, hk, fun {ts rest} hts => ?_⟩
    have hall := scans_append.mpr ⟨after, hscans,
      scans_append.mpr ⟨mid, readColon_eq_ok_iff.mp hcolon, hts⟩⟩
    simpa using hall

/-- A member begins with its key and a colon, and what is left for its value is shorter. -/
theorem nextKey_of_scans {first : Bool} {k : Body} {s : String} (hk : k.Spells s)
    {ts : List (List Char)} {text rest : List Char}
    (h : Scans (separator first ++ (k.token :: [':'] :: ts)) text rest) :
    ∃ after mid, nextKey first text = .ok (some s, after) ∧ readColon after = .ok mid ∧
      Scans ts mid rest ∧ mid.length < text.length := by
  have hsplit : Scans (separator first ++ [k.token] ++ ([[':']] ++ ts)) text rest := by
    simpa using h
  obtain ⟨after, hkey, hafter⟩ := scans_append.mp hsplit
  obtain ⟨mid, hcolon, hmid⟩ := scans_append.mp hafter
  have hshort : 1 + mid.length ≤ after.length := hcolon.length_flatten_le
  have hlength := hkey.length_le
  exact ⟨after, mid, nextKey_of_token hk hkey, readColon_eq_ok_iff.mpr hcolon, hmid, by omega⟩

/-! ## Maps -/

section Maps

variable {α : Type} {value : Reader α} {p : α → Tree → Prop} {m : Nat}

/-- The entries that are read stand in the text as members, with a brace at the end. -/
theorem entries_sound (h : value.Reads m p) {levels n : Nat} {first : Bool} {text rest : List Char}
    {xs : List (String × α)} (hread : entries value levels n first text = .ok (xs, rest)) :
    ∃ es ms, List.Forall₂ IsMember es ms ∧
      List.Forall₂ (fun x e => x.1 = e.1 ∧ p x.2 e.2) xs es ∧
      Scans (memberTokens first ms ++ [['\x7d']]) text rest := by
  induction n generalizing first text xs with
  | zero => cases hread
  | succ n ih =>
      rw [entries] at hread
      obtain ⟨⟨key, after⟩, hkey, hread⟩ := Language.bind_eq_ok_iff.mp hread
      cases key with
      | none =>
          cases hread
          rcases of_nextKey hkey with ⟨-, hscans⟩ | ⟨s, hs, -⟩
          · exact ⟨[], [], .nil, .nil, by simpa [memberTokens] using hscans⟩
          · cases hs
      | some key =>
          obtain ⟨mid, hcolon, hread⟩ := Language.bind_eq_ok_iff.mp hread
          obtain ⟨⟨x, after'⟩, hx, hread⟩ := Language.bind_eq_ok_iff.mp hread
          obtain ⟨⟨xs, last⟩, hxs, heq⟩ := Language.bind_eq_ok_iff.mp hread
          cases heq
          obtain ⟨k, hk, hmember⟩ := scans_of_nextKey hkey hcolon
          obtain ⟨v, hv, hvscans⟩ := h.sound hx
          obtain ⟨es, ms, hes, hxs, hscans⟩ := ih hxs
          refine ⟨(key, v) :: es, (k, v) :: ms, .cons ⟨hk, rfl⟩ hes, .cons ⟨rfl, hv⟩ hxs, ?_⟩
          have hall := hmember (scans_append.mpr ⟨after', hvscans, hscans⟩)
          simpa [memberTokens] using hall

/-- Members that stand in the text are read to the closing brace. -/
theorem entries_complete (h : value.Reads m p) {levels : Nat} (hlevels : levels < m)
    {es : List (String × Tree)} {ms : List (Body × Tree)} (hes : List.Forall₂ IsMember es ms)
    {xs : List (String × α)} (hxs : List.Forall₂ (fun x e => x.1 = e.1 ∧ p x.2 e.2) xs es)
    (hdepth : ∀ m ∈ ms, m.2.depth ≤ levels) {n : Nat} {first : Bool} {text rest : List Char}
    (hn : text.length < n) (hscans : Scans (memberTokens first ms ++ [['\x7d']]) text rest) :
    entries value levels n first text = .ok (xs, rest) := by
  induction hes generalizing n first text xs with
  | nil =>
      obtain ⟨n, rfl⟩ : ∃ k, n = k + 1 := ⟨n - 1, by omega⟩
      cases hxs
      rw [entries, nextKey_of_end (by simpa [memberTokens] using hscans)]
      rfl
  | @cons e m es ms he _ ih =>
      obtain ⟨n, rfl⟩ : ∃ k, n = k + 1 := ⟨n - 1, by omega⟩
      obtain ⟨k, v⟩ := m
      obtain ⟨hk, rfl⟩ := he
      cases hxs with
      | @cons x _ xs _ hx hxs =>
          obtain ⟨hv_depth, hms_depth⟩ := List.forall_mem_cons.mp hdepth
          have hmember : Scans (separator first ++ (k.token :: [':'] ::
              (e.2.tokens ++ (memberTokens false ms ++ [['\x7d']])))) text rest := by
            simpa [memberTokens] using hscans
          obtain ⟨after, mid, hkey, hcolon, hmid, hshort⟩ := nextKey_of_scans hk hmember
          obtain ⟨tail, hvscans, htail⟩ := scans_append.mp hmid
          have hlength := hvscans.length_le
          have hread : entries value levels n false tail = .ok (xs, rest) :=
            ih hxs hms_depth (by omega) htail
          rw [entries]
          refine Language.bind_eq_ok_iff.mpr ⟨(some e.1, after), hkey, ?_⟩
          refine Language.bind_eq_ok_iff.mpr ⟨mid, hcolon, ?_⟩
          refine Language.bind_eq_ok_iff.mpr ⟨(x.2, tail), ?_, ?_⟩
          · exact h.complete hx.2 hvscans hv_depth hlevels
          · exact Language.bind_eq_ok_iff.mpr ⟨(xs, rest), hread, by rw [← hx.1]⟩

/-- A map is read one level further than its values.  Repeated keys are kept. -/
theorem Reader.map_reads (h : value.Reads m p) : (Reader.map value).Reads (m + 1) (IsMap p) := by
  have hopening : isBlank '\x7b' = false := rfl
  constructor
  · intro levels text rest xs hread
    rw [Reader.map] at hread
    split at hread
    · rename_i mid htext
      obtain ⟨inner, _, hentries⟩ := Language.bind_eq_ok_iff.mp hread
      obtain ⟨es, ms, hes, hxs, hscans⟩ := entries_sound h hentries
      refine ⟨.object ms, ⟨es, ⟨ms, rfl, hes⟩, hxs⟩, ?_⟩
      rw [Tree.tokens]
      exact (scans_sign hopening).mpr ⟨mid, htext, hscans⟩
    · cases hread
  · intro levels text rest xs v hv hscans hdepth hlevels
    obtain ⟨es, ⟨ms, rfl, hes⟩, hxs⟩ := hv
    rw [Tree.tokens, scans_sign hopening] at hscans
    obtain ⟨mid, htext, hmid⟩ := hscans
    rw [Tree.depth] at hdepth
    obtain ⟨inner, rfl⟩ : ∃ k, levels = k + 1 := ⟨levels - 1, by omega⟩
    rw [Reader.map, htext]
    refine Language.bind_eq_ok_iff.mpr ⟨inner, rfl, ?_⟩
    exact entries_complete h (by omega) hes hxs (memberDepth_le.mp (by omega)) (by omega) hmid

end Maps

end Rebac.Json
