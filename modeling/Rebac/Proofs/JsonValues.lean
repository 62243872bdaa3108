import Rebac.Json.Value
import Rebac.Proofs.JsonRecords

/-!
# Reading a laid out value back

The layout of a value is a text of one tree (`Json.tree`, `Json.isText_pretty`).  All that it
chooses is where lines break and how a character is escaped.

`Denotes` says which trees stand for a value, and `Json.value` reads exactly these
(`Json.valueWithin_reads`).  So every value is read back from its layout, as far as texts may nest
(`Json.readAll_pretty`).
-/

namespace Rebac.Json

open Text (hexValue? numeral)

/-! ## Strings -/

/-- The digits of a control character. -/
theorem numeral_hexDigit : ∀ n < 0x20,
    ['0', '0', hexDigit (n / 16), hexDigit (n % 16)].all (hexValue? · |>.isSome) = true ∧
      numeral 16 ['0', '0', hexDigit (n / 16), hexDigit (n % 16)] = n := by
  decide

/-- A character is spelled by its escape. -/
theorem spells_escape {c : Char} {body cs : List Char} (h : Spells body cs) :
    Spells (escape c ++ body) (c :: cs) := by
  have hletter : ∀ {d : Char}, (d, c) ∈ letterEscapes → Spells ('\\' :: ([d] ++ body)) (c :: cs) :=
    fun hd => .escape (.letter hd) h
  unfold escape
  split
  · rename_i hc
    exact hletter (by rw [hc]; decide)
  split
  · rename_i hc
    exact hletter (by rw [hc]; decide)
  split
  · rename_i hcontrol
    have hchar : ∀ {n : Nat}, c.toNat = n → c = Char.ofNat n := fun hn => by
      rw [← hn, Char.ofNat_toNat]
    split
    · rename_i hn
      exact hletter (by rw [hchar hn]; decide)
    · rename_i hn
      exact hletter (by rw [hchar hn]; decide)
    · rename_i hn
      exact hletter (by rw [hchar hn]; decide)
    · rename_i hn
      exact hletter (by rw [hchar hn]; decide)
    · rename_i hn
      exact hletter (by rw [hchar hn]; decide)
    · obtain ⟨hdigits, hvalue⟩ := numeral_hexDigit c.toNat hcontrol
      exact .escape (.unit ⟨rfl, List.all_eq_true.mp hdigits⟩ hvalue) h
  · rename_i hquote hslash hcontrol
    exact .plain ⟨by omega, hquote, hslash⟩ h

theorem spells_flatMap_escape (cs : List Char) : Spells (cs.flatMap escape) cs := by
  induction cs with
  | nil => exact .nil
  | cons c cs ih =>
      rw [List.flatMap_cons]
      exact spells_escape ih

/-- The body of a string in a layout. -/
def Body.ofString (s : String) : Body where
  chars := s.toList.flatMap escape
  valid := (spells_flatMap_escape s.toList).isBody

theorem Body.spells_ofString (s : String) : (Body.ofString s).Spells s :=
  spells_flatMap_escape s.toList

theorem Body.token_ofString (s : String) : (Body.ofString s).token = quote s := rfl

/-! ## Trees of values -/

mutual

/-- The tree of a value in its layout. -/
def tree : Json → Tree
  | .null => .scalar ⟨['n', 'u', 'l', 'l'], .null⟩
  | .string s => .string (Body.ofString s)
  | .array vs => .array (treeItems vs)
  | .object ms => .object (treeMembers ms)

/-- The trees of the items of a list. -/
def treeItems : List Json → List Tree
  | [] => []
  | v :: vs => v.tree :: treeItems vs

/-- The trees of the members of an object. -/
def treeMembers : List (String × Json) → List (Body × Tree)
  | [] => []
  | (k, v) :: ms => (Body.ofString k, v.tree) :: treeMembers ms

end

theorem treeItems_eq_map (vs : List Json) : treeItems vs = vs.map tree := by
  induction vs with
  | nil => rfl
  | cons v vs ih => rw [treeItems, List.map_cons, ih]

/-! ## Layouts are texts -/

section Layout

variable {t : List Char} {ts : List (List Char)} {text rest : List Char}

theorem Scans.token (h : Scans ts text rest) : Scans (t :: ts) (t ++ text) rest :=
  @Scans.cons [] t text rest ts (by simp) h

/-- A token may have more white space before it. -/
theorem Scans.blanks {blanks : List Char} (hblanks : ∀ c ∈ blanks, isBlank c)
    (h : Scans (t :: ts) text rest) : Scans (t :: ts) (blanks ++ text) rest := by
  cases h with
  | cons hmore hts =>
      rw [← List.append_assoc]
      exact .cons (List.forall_mem_append.mpr ⟨hblanks, hmore⟩) hts

/-- A token may start on a new line. -/
theorem Scans.newLine (h : Scans (t :: ts) text rest) (depth : Nat) :
    Scans (t :: ts) (newLine depth ++ text) rest := by
  refine h.blanks fun c hc => ?_
  rcases List.mem_cons.mp hc with rfl | hc
  · rfl
  · rw [(List.mem_replicate.mp hc).2]
    rfl

/-- A value may start on a new line. -/
theorem Scans.valueLine {v : Tree} (h : Scans (v.tokens ++ ts) text rest) (depth : Nat) :
    Scans (v.tokens ++ ts) (Json.newLine depth ++ text) rest := by
  obtain ⟨c, u, us, htokens, -⟩ := v.exists_start
  rw [htokens] at h ⊢
  exact h.newLine depth

/-- A member is its key on a new line, a colon and a blank, and its value. -/
theorem Scans.memberLine {v : Tree} (h : Scans (v.tokens ++ ts) text rest) (k : String)
    (depth : Nat) : Scans ((Body.ofString k).token :: [':'] :: (v.tokens ++ ts))
      (Json.newLine depth ++ (quote k ++ ':' :: ' ' :: text)) rest := by
  obtain ⟨c, u, us, htokens, -⟩ := v.exists_start
  rw [htokens] at h ⊢
  have hblank : ∀ b ∈ [' '], isBlank b := List.forall_mem_singleton.mpr rfl
  have hvalue : Scans ((c :: u) :: (us ++ ts)) ([' '] ++ text) rest := h.blanks hblank
  exact ((hvalue.token (t := [':'])).token).newLine depth

end Layout

mutual

/-- The layout of a value starts with the tokens of its tree, whatever follows. -/
theorem scans_layout : ∀ (v : Json) (depth : Nat) {ts : List (List Char)} {after rest : List Char},
    Scans ts after rest → Scans (v.tree.tokens ++ ts) (v.layout depth ++ after) rest
  | .null, _, _, _, _, h => h.token
  | .string s, _, _, _, _, h => by
      rw [tree, Tree.tokens, Body.token_ofString, layout]
      exact h.token
  | .array [], _, _, _, _, h => by
      rw [tree, treeItems, Tree.tokens, itemTokens, layout]
      exact (h.token (t := [']'])).token
  | .array (v :: vs), depth, _, _, _, h => by
      have hend := (h.token (t := [']'])).newLine depth
      have hitems := scans_layoutItems vs (depth + 1) hend
      have hall := ((scans_layout v (depth + 1) hitems).valueLine (depth + 1)).token (t := ['['])
      simpa [tree, treeItems, Tree.tokens, itemTokens, separator, layout] using hall
  | .object [], _, _, _, _, h => by
      rw [tree, treeMembers, Tree.tokens, memberTokens, layout]
      exact (h.token (t := ['\x7d'])).token
  | .object ((k, v) :: ms), depth, _, _, _, h => by
      have hend := (h.token (t := ['\x7d'])).newLine depth
      have hmembers := scans_layoutMembers ms (depth + 1) hend
      have hfirst := (scans_layout v (depth + 1) hmembers).memberLine k (depth + 1)
      have hall := hfirst.token (t := ['\x7b'])
      simpa [tree, treeMembers, Tree.tokens, memberTokens, separator, layout] using hall

theorem scans_layoutItems : ∀ (vs : List Json) (depth : Nat) {ts : List (List Char)}
    {after rest : List Char}, Scans ts after rest →
      Scans (itemTokens false (treeItems vs) ++ ts) (layoutItems depth vs ++ after) rest
  | [], _, _, _, _, h => h
  | v :: vs, depth, _, _, _, h => by
      have hitems := scans_layoutItems vs depth h
      have hall := ((scans_layout v depth hitems).valueLine depth).token (t := [','])
      simpa [treeItems, itemTokens, separator, layoutItems] using hall

theorem scans_layoutMembers : ∀ (ms : List (String × Json)) (depth : Nat) {ts : List (List Char)}
    {after rest : List Char}, Scans ts after rest →
      Scans (memberTokens false (treeMembers ms) ++ ts) (layoutMembers depth ms ++ after) rest
  | [], _, _, _, _, h => h
  | (k, v) :: ms, depth, _, _, _, h => by
      have hmembers := scans_layoutMembers ms depth h
      have hall := ((scans_layout v depth hmembers).memberLine k depth).token (t := [','])
      simpa [treeMembers, memberTokens, separator, layoutMembers] using hall

end

/-- The layout of a value is a JSON text. -/
theorem isText_pretty (v : Json) : v.tree.IsText v.pretty := by
  refine ⟨[], ?_, by simp⟩
  rw [pretty, String.toList_ofList]
  simpa using scans_layout v 0 (@Scans.nil [])

/-! ## What trees denote -/

mutual

/-- The tree stands for the value. -/
def Denotes : Json → Tree → Prop
  | .null, v => ∃ s : Scalar, v = .scalar s ∧ s.text = ['n', 'u', 'l', 'l']
  | .string s, v => IsString s v
  | .array xs, v => ∃ vs, v = .array vs ∧ DenoteItems xs vs
  | .object xs, v => ∃ es, v.IsObject es ∧ DenoteEntries xs es

/-- The trees stand for the values, one each. -/
def DenoteItems : List Json → List Tree → Prop
  | [], vs => vs = []
  | x :: xs, vs => ∃ w ws, vs = w :: ws ∧ Denotes x w ∧ DenoteItems xs ws

/-- The entries stand for the members, one each with the same key. -/
def DenoteEntries : List (String × Json) → List (String × Tree) → Prop
  | [], es => es = []
  | (k, x) :: xs, es => ∃ w ws, es = (k, w) :: ws ∧ Denotes x w ∧ DenoteEntries xs ws

end

theorem denoteItems_iff {xs : List Json} {vs : List Tree} :
    DenoteItems xs vs ↔ List.Forall₂ Denotes xs vs := by
  induction xs generalizing vs with
  | nil => simp [DenoteItems]
  | cons x xs ih =>
      rw [DenoteItems, List.forall₂_cons_left_iff]
      constructor
      · rintro ⟨w, ws, rfl, hw, hws⟩
        exact ⟨w, ws, hw, ih.mp hws, rfl⟩
      · rintro ⟨w, ws, hw, hws, rfl⟩
        exact ⟨w, ws, rfl, hw, ih.mpr hws⟩

theorem denoteEntries_iff {xs : List (String × Json)} {es : List (String × Tree)} :
    DenoteEntries xs es ↔ List.Forall₂ (fun x e => x.1 = e.1 ∧ Denotes x.2 e.2) xs es := by
  induction xs generalizing es with
  | nil => simp [DenoteEntries]
  | cons x xs ih =>
      rw [DenoteEntries, List.forall₂_cons_left_iff]
      constructor
      · rintro ⟨w, ws, rfl, hw, hws⟩
        exact ⟨_, ws, ⟨rfl, hw⟩, ih.mp hws, rfl⟩
      · rintro ⟨e, ws, ⟨hkey, hw⟩, hws, rfl⟩
        exact ⟨e.2, ws, by rw [hkey], hw, ih.mpr hws⟩

theorem denotes_array_iff {xs : List Json} {v : Tree} :
    Denotes (.array xs) v ↔ IsList Denotes xs v := by
  simp only [Denotes, denoteItems_iff, IsList]

theorem denotes_object_iff {xs : List (String × Json)} {v : Tree} :
    Denotes (.object xs) v ↔ IsMap Denotes xs v := by
  simp only [Denotes, denoteEntries_iff, IsMap]

mutual

/-- The tree of a value stands for it. -/
theorem denotes_tree : ∀ v : Json, Denotes v v.tree
  | .null => ⟨_, rfl, rfl⟩
  | .string s => ⟨_, rfl, Body.spells_ofString s⟩
  | .array vs => by
      rw [tree, denotes_array_iff]
      exact ⟨_, rfl, denotes_treeItems vs⟩
  | .object ms => by
      obtain ⟨es, hes, hms⟩ := denotes_treeMembers ms
      rw [tree, denotes_object_iff]
      exact ⟨es, ⟨_, rfl, hes⟩, hms⟩

theorem denotes_treeItems : ∀ vs : List Json, List.Forall₂ Denotes vs (treeItems vs)
  | [] => .nil
  | v :: vs => .cons (denotes_tree v) (denotes_treeItems vs)

theorem denotes_treeMembers : ∀ ms : List (String × Json), ∃ es : List (String × Tree),
    List.Forall₂ IsMember es (treeMembers ms) ∧
      List.Forall₂ (fun x e => x.1 = e.1 ∧ Denotes x.2 e.2) ms es
  | [] => ⟨[], .nil, .nil⟩
  | (k, v) :: ms => by
      obtain ⟨es, hes, hms⟩ := denotes_treeMembers ms
      refine ⟨(k, v.tree) :: es, .cons ⟨Body.spells_ofString k, rfl⟩ hes, .cons ⟨rfl, ?_⟩ hms⟩
      exact denotes_tree v

end

/-! ## Reading values -/

/-- Reads a value, given the reader of the values inside.  Numbers and truth values are refused. -/
def Reader.value (inner : Reader Json) : Reader Json := fun levels text =>
  match skipBlank text with
  | 'n' :: rest => do
      let rest ← readWord ['u', 'l', 'l'] rest
      .ok (.null, rest)
  | '[' :: _ => (Reader.list inner).apply .array levels text
  | '\x7b' :: _ => (Reader.map inner).apply .object levels text
  | _ => Reader.string.apply .string levels text

/-- Reads a value that nests at most so deep. -/
def valueWithin : Nat → Reader Json
  | 0 => fun _ _ => .error .tooDeep
  | n + 1 => Reader.value (valueWithin n)

/-- Reads a value. -/
def value : Reader Json := valueWithin (levelLimit + 1)

theorem Reader.value_reads {inner : Reader Json} {n : Nat} (h : inner.Reads n Denotes) :
    (Reader.value inner).Reads (n + 1) Denotes := by
  have hstring := (Reader.string_reads (n + 1)).apply Json.string
  have hlist := (Reader.list_reads h).apply Json.array
  have hmap := (Reader.map_reads h).apply Json.object
  have hword : isBlank 'n' = false := rfl
  have hopening : isBlank '[' = false := rfl
  have hbrace : isBlank '\x7b' = false := rfl
  constructor
  · intro levels text rest x hread
    rw [Reader.value] at hread
    split at hread
    · rename_i after htext
      obtain ⟨mid, hmid, hx⟩ := Language.bind_eq_ok_iff.mp hread
      cases hx
      rw [readWord_eq_ok_iff.mp hmid] at htext
      refine ⟨tree .null, denotes_tree .null, ?_⟩
      rw [tree, Tree.tokens]
      exact (scans_cons hword).mpr ⟨rest, htext, .nil⟩
    · obtain ⟨v, ⟨xs, hxs, rfl⟩, hscans⟩ := hlist.sound hread
      exact ⟨v, denotes_array_iff.mpr hxs, hscans⟩
    · obtain ⟨v, ⟨xs, hxs, rfl⟩, hscans⟩ := hmap.sound hread
      exact ⟨v, denotes_object_iff.mpr hxs, hscans⟩
    · obtain ⟨v, ⟨s, hs, rfl⟩, hscans⟩ := hstring.sound hread
      exact ⟨v, hs, hscans⟩
  · intro levels text rest x v hv hscans hdepth hlevels
    rw [Reader.value]
    -- The first character of the text says of which kind the value is.
    cases x with
    | null =>
        obtain ⟨s, rfl, hs⟩ := hv
        rw [Tree.tokens, hs, scans_cons hword] at hscans
        obtain ⟨mid, htext, hmid⟩ := hscans
        rw [scans_nil] at hmid
        subst hmid
        rw [htext]
        exact Language.bind_eq_ok_iff.mpr ⟨mid, readWord_eq_ok_iff.mpr rfl, rfl⟩
    | string s =>
        have hread := hstring.complete ⟨s, hv, rfl⟩ hscans hdepth hlevels
        obtain ⟨b, rfl, -⟩ := hv
        rw [Tree.tokens] at hscans
        obtain ⟨mid, htext, -⟩ := scans_token.mp hscans
        rw [htext]
        exact hread
    | array xs =>
        have hread := hlist.complete ⟨xs, denotes_array_iff.mp hv, rfl⟩ hscans hdepth hlevels
        obtain ⟨vs, rfl, -⟩ := hv
        rw [Tree.tokens, scans_sign hopening] at hscans
        obtain ⟨mid, htext, -⟩ := hscans
        rw [htext]
        exact hread
    | object xs =>
        have hread := hmap.complete ⟨xs, denotes_object_iff.mp hv, rfl⟩ hscans hdepth hlevels
        obtain ⟨es, ⟨ms, rfl, -⟩, -⟩ := hv
        rw [Tree.tokens, scans_sign hbrace] at hscans
        obtain ⟨mid, htext, -⟩ := hscans
        rw [htext]
        exact hread

/-- A value is read exactly from the trees that stand for it. -/
theorem valueWithin_reads (n : Nat) : (valueWithin n).Reads n Denotes := by
  induction n with
  | zero => exact ⟨fun h => (by cases h), fun _ _ _ h => absurd h (by omega)⟩
  | succ n ih => exact Reader.value_reads ih

/-- A value that does not nest too deep is read back from its layout. -/
theorem readAll_pretty {v : Json} (h : v.tree.depth ≤ levelLimit) :
    readAll value v.pretty = .ok v :=
  readAll_complete (valueWithin_reads _) (Nat.lt_succ_self _) (denotes_tree v) (isText_pretty v) h

end Rebac.Json
