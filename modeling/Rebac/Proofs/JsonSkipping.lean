import Rebac.Proofs.JsonTexts

/-!
# Values that are passed over

Passing over a value takes the text of a whole tree, and of any tree (`skipValue_sound`,
`skipValue_complete`).  A number has no end of its own, so the second half needs that something
ends it: `Ends` says that the text stops there or goes on with white space, a comma or a closing
bracket.

The walk keeps the open lists and objects as frames.  What is left of a frame is some cells and the
closing bracket.  In a list the keys of the cells are not written.
-/

namespace Rebac.Json

open Text (isDigit)

/-! ## Numbers and words -/

/-- The text stops or goes on with what may stand after a value. -/
def Ends (text : List Char) : Prop := ∀ c ∈ text.head?, isStart c = false

theorem readWord_eq_ok_iff {word text rest : List Char} :
    readWord word text = .ok rest ↔ text = word ++ rest := by
  induction word generalizing text with
  | nil => simp [readWord]
  | cons c word ih =>
      cases text with
      | nil => simp [readWord]
      | cons d text =>
          rw [readWord]
          split
          · rename_i heq
            simp [ih, heq]
          · rename_i hne
            simp [Ne.symm hne]

/-- Digits are passed over as far as they go. -/
theorem skipDigits_eq_ok_iff {text rest : List Char} : skipDigits text = .ok rest ↔
    ∃ ds, IsDigits ds ∧ text = ds ++ rest ∧ ∀ c ∈ rest.head?, isDigit c = false := by
  constructor
  · intro h
    rw [skipDigits.eq_def] at h
    split at h
    · rename_i c text
      split at h
      · rename_i hc
        cases h
        refine ⟨c :: text.takeWhile isDigit, ⟨by simp, ?_⟩, ?_, ?_⟩
        · exact List.forall_mem_cons.mpr ⟨hc, fun d hd => List.mem_takeWhile_imp hd⟩
        · rw [List.cons_append, List.takeWhile_append_dropWhile]
        · intro d hd
          simpa [Option.mem_def.mp hd] using List.head?_dropWhile_not isDigit text
      · cases h
    · cases h
  · intro ⟨ds, ⟨hne, hdigits⟩, htext, hrest⟩
    obtain ⟨c, ds, rfl⟩ := List.exists_cons_of_ne_nil hne
    obtain ⟨hc, hds⟩ := List.forall_mem_cons.mp hdigits
    have hstop : rest.dropWhile isDigit = rest := by
      cases rest with
      | nil => rfl
      | cons d rest => exact List.dropWhile_cons_of_neg (by simp [hrest d rfl])
    rw [htext, List.cons_append, skipDigits, if_pos hc, List.dropWhile_append_of_pos hds, hstop]

theorem Ends.isDigit_eq_false {text : List Char} (h : Ends text) :
    ∀ c ∈ text.head?, isDigit c = false := by
  intro c hc
  by_contra hdigit
  exact absurd (isStart_of_isDigit (Bool.of_not_eq_false hdigit)) (by simp [h c hc])

/-- What is passed over as an exponent is one, or nothing. -/
theorem skipExponent_sound {text rest : List Char} (h : skipExponent text = .ok rest) :
    ∃ exponent, IsExponent exponent ∧ text = exponent ++ rest := by
  have hdigits : ∀ {e text : _} (sign : List Char), e = 'e' ∨ e = 'E' →
      sign = [] ∨ sign = ['+'] ∨ sign = ['-'] → skipDigits text = .ok rest →
      ∃ exponent, IsExponent exponent ∧ e :: (sign ++ text) = exponent ++ rest := by
    intro e text sign he hsign hskip
    obtain ⟨ds, hds, rfl, -⟩ := skipDigits_eq_ok_iff.mp hskip
    exact ⟨e :: (sign ++ ds), .given he hsign hds, by simp⟩
  unfold skipExponent at h
  split at h
  · split at h
    · exact hdigits ['+'] (.inl rfl) (by simp) h
    · exact hdigits ['-'] (.inl rfl) (by simp) h
    · exact hdigits [] (.inl rfl) (by simp) h
  · split at h
    · exact hdigits ['+'] (.inr rfl) (by simp) h
    · exact hdigits ['-'] (.inr rfl) (by simp) h
    · exact hdigits [] (.inr rfl) (by simp) h
  · cases h
    exact ⟨[], .absent, rfl⟩

theorem Ends.skipExponent_eq {rest : List Char} (h : Ends rest) : skipExponent rest = .ok rest := by
  unfold skipExponent
  split
  · exact absurd (h 'e' rfl) (by decide)
  · exact absurd (h 'E' rfl) (by decide)
  · rfl

/-- An exponent is passed over, if something ends it. -/
theorem skipExponent_complete {exponent rest : List Char} (h : IsExponent exponent)
    (hrest : Ends rest) : skipExponent (exponent ++ rest) = .ok rest := by
  cases h with
  | absent => exact hrest.skipExponent_eq
  | @given e sign ds he hsign hds =>
      have hskip : skipDigits (ds ++ rest) = .ok rest :=
        skipDigits_eq_ok_iff.mpr ⟨ds, hds, rfl, hrest.isDigit_eq_false⟩
      obtain ⟨hne, hdigits⟩ := hds
      obtain ⟨d, ds, rfl⟩ := List.exists_cons_of_ne_nil hne
      have hd := hdigits d List.mem_cons_self
      have hunsigned : d ≠ '+' ∧ d ≠ '-' := ⟨ne_of_class hd rfl, ne_of_class hd rfl⟩
      rcases he with rfl | rfl <;> rcases hsign with rfl | rfl | rfl <;>
        simpa [skipExponent, hunsigned] using hskip

/-- Passes over the whole part of a number. -/
def skipWhole : List Char → Except Fault (List Char)
  | '0' :: rest => if rest.head?.any isDigit then .error .invalidNumber else .ok rest
  | rest => skipDigits rest

/-- Passes over the fraction and the exponent of a number, if there are any. -/
def skipScale : List Char → Except Fault (List Char)
  | '.' :: digits => skipDigits digits >>= skipExponent
  | rest => skipExponent rest

/-- A number is passed over in two parts. -/
theorem skipNumber_eq (text : List Char) : skipNumber text = skipWhole text >>= skipScale := by
  unfold skipNumber
  split
  · rw [skipWhole]
    split <;> rfl
  · rename_i hzero
    rw [skipWhole.eq_2 _ hzero]
    rfl

/-- A whole part is passed over as far as its digits go, and has no zero before other digits. -/
theorem skipWhole_eq_ok_iff {text rest : List Char} : skipWhole text = .ok rest ↔
    ∃ whole, IsWhole whole ∧ text = whole ++ rest ∧ ∀ c ∈ rest.head?, isDigit c = false := by
  have hany : ∀ text : List Char,
      text.head?.any isDigit = false ↔ ∀ c ∈ text.head?, isDigit c = false := by
    intro text
    cases text <;> simp
  constructor
  · intro h
    unfold skipWhole at h
    split at h
    · split at h
      · cases h
      · rename_i hdigit
        cases h
        have hzero : IsDigits ['0'] := ⟨List.cons_ne_nil _ _, List.forall_mem_singleton.mpr rfl⟩
        exact ⟨['0'], ⟨hzero, fun _ => rfl⟩, rfl, (hany _).mp (Bool.of_not_eq_true hdigit)⟩
    · rename_i hzero
      obtain ⟨ds, hds, rfl, hrest⟩ := skipDigits_eq_ok_iff.mp h
      refine ⟨ds, ⟨hds, fun hhead => ?_⟩, rfl, hrest⟩
      obtain ⟨tail, rfl⟩ := List.head?_eq_some_iff.mp hhead
      exact absurd rfl (hzero _)
  · intro ⟨whole, ⟨hdigits, hzero⟩, htext, hrest⟩
    by_cases hhead : whole.head? = some '0'
    · rw [htext, hzero hhead, List.singleton_append, skipWhole, (hany rest).mpr hrest]
      rfl
    · have hskip : skipDigits text = .ok rest :=
        skipDigits_eq_ok_iff.mpr ⟨whole, hdigits, htext, hrest⟩
      rw [skipWhole.eq_2, hskip]
      intro tail htail
      obtain ⟨d, ds, rfl⟩ := List.exists_cons_of_ne_nil hdigits.1
      rw [htext, List.cons_append] at htail
      exact hhead (congrArg some (List.cons.inj htail).1)

/-- What is passed over after the whole part is a fraction and an exponent, each of which may be
empty. -/
theorem skipScale_sound {text rest : List Char} (h : skipScale text = .ok rest) :
    ∃ fraction exponent, IsFraction fraction ∧ IsExponent exponent ∧
      text = fraction ++ exponent ++ rest := by
  unfold skipScale at h
  split at h
  · obtain ⟨tail, hdigits, htail⟩ := Language.bind_eq_ok_iff.mp h
    obtain ⟨ds, hds, rfl, -⟩ := skipDigits_eq_ok_iff.mp hdigits
    obtain ⟨exponent, hexponent, rfl⟩ := skipExponent_sound htail
    exact ⟨'.' :: ds, exponent, .given hds, hexponent, by simp⟩
  · obtain ⟨exponent, hexponent, rfl⟩ := skipExponent_sound h
    exact ⟨[], exponent, .absent, hexponent, rfl⟩

/-- Neither an exponent nor what ends a number starts with a digit or a point. -/
theorem IsExponent.head?_append {exponent rest : List Char} (h : IsExponent exponent)
    (hrest : Ends rest) : ∀ c ∈ (exponent ++ rest).head?, isDigit c = false ∧ c ≠ '.' := by
  cases h with
  | absent =>
      intro c hc
      refine ⟨hrest.isDigit_eq_false c hc, fun hpoint => ?_⟩
      exact absurd (hrest c hc) (by rw [hpoint]; decide)
  | given he _ _ =>
      intro c hc
      cases hc
      rcases he with rfl | rfl
      · decide
      · decide

/-- A fraction and an exponent are passed over, if something ends them. -/
theorem skipScale_complete {fraction exponent rest : List Char} (hfraction : IsFraction fraction)
    (hexponent : IsExponent exponent) (hrest : Ends rest) :
    skipScale (fraction ++ exponent ++ rest) = .ok rest := by
  have hskip := skipExponent_complete hexponent hrest
  have hhead := hexponent.head?_append hrest
  cases hfraction with
  | absent =>
      rw [List.nil_append, skipScale.eq_2, hskip]
      intro digits heq
      exact (hhead '.' (by rw [heq]; rfl)).2 rfl
  | @given ds hds =>
      have hdigits : skipDigits (ds ++ (exponent ++ rest)) = .ok (exponent ++ rest) :=
        skipDigits_eq_ok_iff.mpr ⟨ds, hds, rfl, fun c hc => (hhead c hc).1⟩
      rw [List.append_assoc, List.cons_append, skipScale, hdigits]
      exact hskip

/-- What is passed over as a number is one. -/
theorem skipNumber_sound {text rest : List Char} (h : skipNumber text = .ok rest) :
    ∃ number, IsNumber number ∧ text = number ++ rest := by
  rw [skipNumber_eq] at h
  obtain ⟨after, hafter, hscale⟩ := Language.bind_eq_ok_iff.mp h
  obtain ⟨whole, hwhole, rfl, -⟩ := skipWhole_eq_ok_iff.mp hafter
  obtain ⟨fraction, exponent, hfraction, hexponent, rfl⟩ := skipScale_sound hscale
  exact ⟨_, ⟨whole, fraction, exponent, hwhole, hfraction, hexponent, rfl⟩, by simp⟩

/-- A number is passed over, if something ends it. -/
theorem skipNumber_complete {number rest : List Char} (h : IsNumber number) (hrest : Ends rest) :
    skipNumber (number ++ rest) = .ok rest := by
  obtain ⟨whole, fraction, exponent, hwhole, hfraction, hexponent, rfl⟩ := h
  have hhead : ∀ c ∈ (fraction ++ exponent ++ rest).head?, isDigit c = false := by
    cases hfraction with
    | absent => exact fun c hc => (hexponent.head?_append hrest c hc).1
    | given _ =>
        intro c hc
        cases hc
        rfl
  rw [skipNumber_eq]
  refine Language.bind_eq_ok_iff.mpr ⟨fraction ++ exponent ++ rest, ?_, ?_⟩
  · exact skipWhole_eq_ok_iff.mpr ⟨whole, hwhole, by simp, hhead⟩
  · exact skipScale_complete hfraction hexponent hrest

/-! ## Scalars -/

/-- What is passed over as a scalar is the only token of a tree. -/
theorem skipScalar_sound {text rest : List Char} (h : skipScalar text = .ok rest) :
    ∃ v : Tree, ∃ t, v.tokens = [t] ∧ text = t ++ rest := by
  have hscalar : ∀ {t : List Char}, IsScalar t → ∃ v : Tree, ∃ u, v.tokens = [u] ∧
      t ++ rest = u ++ rest := fun hs => ⟨.scalar ⟨_, hs⟩, _, by rw [Tree.tokens], rfl⟩
  unfold skipScalar at h
  split at h
  · cases h
  · rw [readWord_eq_ok_iff.mp h]
    exact hscalar .null
  · rw [readWord_eq_ok_iff.mp h]
    exact hscalar .true
  · rw [readWord_eq_ok_iff.mp h]
    exact hscalar .false
  · obtain ⟨body, hbody, rfl⟩ := skipChars_eq_ok_iff.mp h
    exact ⟨.string ⟨body, hbody⟩, _, by rw [Tree.tokens], by simp [Body.token]⟩
  · obtain ⟨number, hnumber, rfl⟩ := skipNumber_sound h
    exact hscalar (.negative hnumber)
  · split at h
    · obtain ⟨number, hnumber, htext⟩ := skipNumber_sound h
      rw [htext]
      exact hscalar (.number hnumber)
    · cases h

/-- A scalar is passed over, if something ends it. -/
theorem skipScalar_scalar {t rest : List Char} (h : IsScalar t) (hrest : Ends rest) :
    skipScalar (t ++ rest) = .ok rest := by
  cases h with
  | null | true | false => exact readWord_eq_ok_iff.mpr rfl
  | negative hnumber => exact skipNumber_complete hnumber hrest
  | number hnumber =>
      obtain ⟨c, tail, rfl, hc⟩ := hnumber.exists_head
      have hskip := skipNumber_complete hnumber hrest
      rw [List.cons_append, skipScalar, if_pos hc]
      · exact hskip
      all_goals exact ne_of_class hc rfl

theorem skipScalar_token (b : Body) (rest : List Char) : skipScalar (b.token ++ rest) = .ok rest :=
  skipChars_eq_ok_iff.mpr ⟨b.chars, b.valid, by simp⟩

/-! ## Frames -/

/-- The tokens of the key of a cell. -/
def Frame.keyTokens : Frame → Body → List (List Char)
  | .list, _ => []
  | .object, k => [k.token, [':']]

/-- The tokens of the cells of a frame. -/
def Frame.tokens (f : Frame) (first : Bool) : List (Body × Tree) → List (List Char)
  | [] => []
  | (k, v) :: ms => separator first ++ (f.keyTokens k ++ (v.tokens ++ f.tokens false ms))

/-- The bracket that opens a frame. -/
def Frame.opening : Frame → Char
  | .list => '['
  | .object => '\x7b'

/-- The list or the object with these cells. -/
def Frame.tree : Frame → List (Body × Tree) → Tree
  | .list, ms => .array (ms.map Prod.snd)
  | .object, ms => .object ms

/-- Where the walk stands in a frame before a cell. -/
def Frame.place (first : Bool) : Place := if first then .opened else .done

theorem Frame.tokens_list (first : Bool) (ms : List (Body × Tree)) :
    Frame.list.tokens first ms = itemTokens first (ms.map Prod.snd) := by
  induction ms generalizing first with
  | nil => simp [Frame.tokens, itemTokens]
  | cons m ms ih => simp [Frame.tokens, itemTokens, Frame.keyTokens, ih]

theorem Frame.tokens_object (first : Bool) (ms : List (Body × Tree)) :
    Frame.object.tokens first ms = memberTokens first ms := by
  induction ms generalizing first with
  | nil => simp [Frame.tokens, memberTokens]
  | cons m ms ih => simp [Frame.tokens, memberTokens, Frame.keyTokens, ih]

/-- A tree of cells is written between the brackets of its frame. -/
theorem Frame.tokens_tree (f : Frame) (ms : List (Body × Tree)) :
    (f.tree ms).tokens = [f.opening] :: (f.tokens true ms ++ [[f.closing]]) := by
  cases f with
  | list => rw [Frame.tree, Tree.tokens, Frame.tokens_list, Frame.opening, Frame.closing]
  | object => rw [Frame.tree, Tree.tokens, Frame.tokens_object, Frame.opening, Frame.closing]

theorem Frame.isStart_closing (f : Frame) : isStart f.closing = false := by
  cases f <;> rfl

theorem Frame.isBlank_closing (f : Frame) : isBlank f.closing = false := by
  cases f <;> rfl

theorem Frame.isBlank_opening (f : Frame) : isBlank f.opening = false := by
  cases f <;> rfl

theorem readColon_eq_ok_iff {text rest : List Char} :
    readColon text = .ok rest ↔ Scans [[':']] text rest := by
  have hcolon : isBlank ':' = false := rfl
  simp only [scans_sign hcolon, scans_nil, exists_eq_right]
  rw [readColon]
  split <;> simp_all

/-- Passing over a string needs a body, and it does not matter which. -/
theorem exists_token_scans {ts : List (List Char)} {text rest : List Char} :
    (∃ k : Body, Scans (k.token :: ts) text rest) ↔ ∃ mid after, skipBlank text = '"' :: mid ∧
      skipChars mid = .ok after ∧ Scans ts after rest := by
  simp only [scans_token, skipChars_eq_ok_iff]
  constructor
  · intro ⟨k, after, htext, hts⟩
    exact ⟨_, after, htext, ⟨k.chars, k.valid, rfl⟩, hts⟩
  · intro ⟨mid, after, htext, ⟨body, hbody, hmid⟩, hts⟩
    exact ⟨⟨body, hbody⟩, after, by rw [htext, hmid], hts⟩

/-- What is passed over before a value is a key with its colon, or nothing in a list. -/
theorem Frame.skipKey_eq_ok_iff {f : Frame} {text rest : List Char} :
    f.skipKey text = .ok rest ↔ ∃ k, Scans (f.keyTokens k) text rest := by
  cases f with
  | list =>
      simp only [Frame.skipKey, Frame.keyTokens, scans_nil, Except.ok.injEq]
      exact ⟨fun h => ⟨⟨[], .nil⟩, h⟩, fun ⟨_, h⟩ => h⟩
  | object =>
      simp only [Frame.keyTokens, exists_token_scans, ← readColon_eq_ok_iff]
      rw [Frame.skipKey]
      split
      · simp_all
      · simp_all [Language.bind_eq_ok_iff]
      · simp_all

/-! ## Passing over texts -/

theorem skipFrom_scalar {n : Nat} {frames : List Frame} {text : List Char}
    (hlist : ∀ rest, skipBlank text ≠ '[' :: rest)
    (hobject : ∀ rest, skipBlank text ≠ '\x7b' :: rest) : skipFrom (n + 1) .value frames text =
      skipScalar (skipBlank text) >>= skipFrom n .done frames := by
  rw [skipFrom]
  split
  · exact absurd ‹_› (hlist _)
  · exact absurd ‹_› (hobject _)
  · rfl

theorem skipFrom_open {n : Nat} {frames : List Frame} {f : Frame} {text rest : List Char}
    (h : skipBlank text = f.opening :: rest) :
    skipFrom (n + 1) .value frames text = skipFrom n .opened (f :: frames) rest := by
  cases f with
  | list =>
      rw [skipFrom, h, Frame.opening]
      rfl
  | object =>
      rw [skipFrom, h, Frame.opening]
      rfl

/-- The two ways on inside a frame: its end, or a comma unless it is the first cell, a key and a
value. -/
theorem skipFrom_opened {n : Nat} {frames : List Frame} {f : Frame} {c : Char}
    {text rest : List Char} (h : skipBlank text = c :: rest) :
    skipFrom (n + 1) .opened (f :: frames) text =
      if c = f.closing then skipFrom n .done frames rest
      else f.skipKey (c :: rest) >>= skipFrom n .value (f :: frames) := by
  rw [skipFrom, h]

theorem skipFrom_done {n : Nat} {frames : List Frame} {f : Frame} {c : Char}
    {text rest : List Char} (h : skipBlank text = c :: rest) :
    skipFrom (n + 1) .done (f :: frames) text =
      if c = ',' then f.skipKey rest >>= skipFrom n .value (f :: frames)
      else if c = f.closing then skipFrom n .done frames rest
      else .error f.unseparated := by
  rw [skipFrom, h]

theorem skipFrom_close {n : Nat} {first : Bool} {frames : List Frame} {f : Frame}
    {text rest : List Char} (h : skipBlank text = f.closing :: rest) :
    skipFrom (n + 1) (Frame.place first) (f :: frames) text = skipFrom n .done frames rest := by
  cases first with
  | true => exact (skipFrom_opened h).trans (if_pos rfl)
  | false =>
      have hcomma : f.closing ≠ ',' := by cases f <;> decide
      exact (skipFrom_done h).trans ((if_neg hcomma).trans (if_pos rfl))

/-- Before a cell the walk passes over its comma and its key. -/
theorem skipFrom_cell {first : Bool} {f : Frame} {k : Body} {v : Tree} {ts : List (List Char)}
    {text rest : List Char}
    (h : Scans (separator first ++ (f.keyTokens k ++ (v.tokens ++ ts))) text rest) :
    ∃ after, after.length ≤ text.length ∧ Scans (v.tokens ++ ts) after rest ∧
      ∀ n frames, skipFrom (n + 1) (Frame.place first) (f :: frames) text =
        skipFrom n .value (f :: frames) after := by
  obtain ⟨c, t, us, hcell, hc⟩ :
      ∃ c t us, f.keyTokens k ++ (v.tokens ++ ts) = (c :: t) :: us ∧ isStart c := by
    cases f with
    | list =>
        obtain ⟨c, t, us, htokens, hc⟩ := v.exists_start
        exact ⟨c, t, us ++ ts, by simp [Frame.keyTokens, htokens], hc⟩
    | object => exact ⟨'"', _, _, by rw [Frame.keyTokens, Body.token]; rfl, rfl⟩
  have hblank := isBlank_of_isStart hc
  cases first with
  | true =>
      have hcellScans : Scans (f.keyTokens k ++ (v.tokens ++ ts)) (skipBlank text) rest := by
        rw [hcell]
        exact Scans.skipBlank hblank (hcell ▸ h)
      obtain ⟨mid, htext, -⟩ := (scans_cons hblank).mp (hcell ▸ h)
      obtain ⟨after, hkey, hrest⟩ := scans_append.mp hcellScans
      refine ⟨after, hkey.length_le.trans (length_skipBlank_le text), hrest, fun n frames => ?_⟩
      have hskip : f.skipKey (c :: (t ++ mid)) = .ok after :=
        Frame.skipKey_eq_ok_iff.mpr ⟨k, htext ▸ hkey⟩
      refine (skipFrom_opened htext).trans ?_
      rw [if_neg (ne_of_class hc f.isStart_closing), hskip]
      rfl
  | false =>
      have hcomma : isBlank ',' = false := rfl
      change Scans ([','] :: (f.keyTokens k ++ (v.tokens ++ ts))) text rest at h
      obtain ⟨mid, htext, hmid⟩ := (scans_sign hcomma).mp h
      obtain ⟨after, hkey, hrest⟩ := scans_append.mp hmid
      have hskip : f.skipKey mid = .ok after := Frame.skipKey_eq_ok_iff.mpr ⟨k, hkey⟩
      have hlength := length_lt_of_skipBlank htext
      refine ⟨after, hkey.length_le.trans hlength.le, hrest, fun n frames => ?_⟩
      refine (skipFrom_done htext).trans ?_
      rw [if_pos rfl, hskip]
      rfl

/-- Inside a frame the walk goes on with its end or with a cell. -/
theorem of_skipFrom_place {n : Nat} {first : Bool} {frames : List Frame} {f : Frame}
    {text rest : List Char}
    (h : skipFrom (n + 1) (Frame.place first) (f :: frames) text = .ok rest) :
    (∃ after, skipBlank text = f.closing :: after ∧ skipFrom n .done frames after = .ok rest) ∨
      ∃ k after, skipFrom n .value (f :: frames) after = .ok rest ∧
        ∀ ts mid, ts ≠ [] → Scans ts after mid →
          Scans (separator first ++ (f.keyTokens k ++ ts)) text mid := by
  cases htext : skipBlank text with
  | nil => cases first <;> simp [Frame.place, skipFrom, htext] at h
  | cons c tail =>
      cases first with
      | true =>
          rw [Frame.place, if_pos rfl, skipFrom_opened htext] at h
          split at h
          · rename_i hc
            exact .inl ⟨tail, by rw [hc], h⟩
          · obtain ⟨after, hskip, hvalue⟩ := Language.bind_eq_ok_iff.mp h
            obtain ⟨k, hkey⟩ := Frame.skipKey_eq_ok_iff.mp hskip
            refine .inr ⟨k, after, hvalue, fun ts mid hts hscans => ?_⟩
            change Scans (f.keyTokens k ++ ts) text mid
            refine Scans.of_skipBlank (List.append_ne_nil_of_right_ne_nil _ hts) ?_
            exact scans_append.mpr ⟨after, htext ▸ hkey, hscans⟩
      | false =>
          have hcomma : isBlank ',' = false := rfl
          rw [Frame.place, if_neg (by decide), skipFrom_done htext] at h
          split at h
          · rename_i hc
            obtain ⟨after, hskip, hvalue⟩ := Language.bind_eq_ok_iff.mp h
            obtain ⟨k, hkey⟩ := Frame.skipKey_eq_ok_iff.mp hskip
            refine .inr ⟨k, after, hvalue, fun ts mid hts hscans => ?_⟩
            change Scans ([','] :: (f.keyTokens k ++ ts)) text mid
            exact (scans_sign hcomma).mpr
              ⟨tail, by rw [htext, hc], scans_append.mpr ⟨after, hkey, hscans⟩⟩
          · split at h
            · rename_i hc
              exact .inl ⟨tail, by rw [hc], h⟩
            · cases h

/-- A walk of so many steps that ends has passed over a tree before it goes on outside. -/
def PassesTree (n : Nat) : Prop := ∀ frames text rest, skipFrom n .value frames text = .ok rest →
  ∃ v : Tree, ∃ mid, ∃ m < n, Scans v.tokens text mid ∧ skipFrom m .done frames mid = .ok rest

/-- A walk of so many steps that ends has passed over the rest of a frame before it leaves it. -/
def PassesFrame (n : Nat) : Prop := ∀ first f frames text rest,
  skipFrom n (Frame.place first) (f :: frames) text = .ok rest → ∃ ms mid, ∃ m < n,
    Scans (f.tokens first ms ++ [[f.closing]]) text mid ∧ skipFrom m .done frames mid = .ok rest

/-- A value is a scalar, or opens a frame that is passed over in fewer steps. -/
theorem passesTree_succ {n : Nat} (hframe : PassesFrame n) : PassesTree (n + 1) := by
  intro frames text rest h
  by_cases hopen : ∃ f : Frame, ∃ after, skipBlank text = f.opening :: after
  · obtain ⟨f, after, htext⟩ := hopen
    rw [skipFrom_open htext] at h
    obtain ⟨ms, mid, m, hm, hscans, hdone⟩ := hframe true f frames after rest h
    refine ⟨f.tree ms, mid, m, by omega, ?_, hdone⟩
    rw [Frame.tokens_tree]
    exact (scans_sign f.isBlank_opening).mpr ⟨after, htext, hscans⟩
  · have hlist : ∀ after, skipBlank text ≠ '[' :: after :=
      fun after htext => hopen ⟨.list, after, htext⟩
    have hobject : ∀ after, skipBlank text ≠ '\x7b' :: after :=
      fun after htext => hopen ⟨.object, after, htext⟩
    rw [skipFrom_scalar hlist hobject] at h
    obtain ⟨mid, hscalar, hdone⟩ := Language.bind_eq_ok_iff.mp h
    obtain ⟨v, t, htokens, htext⟩ := skipScalar_sound hscalar
    refine ⟨v, mid, n, by omega, ?_, hdone⟩
    rw [htokens]
    refine Scans.of_skipBlank (by simp) ?_
    rw [htext]
    exact @Scans.cons [] t mid mid [] (by simp) .nil

/-- The rest of a frame is its bracket, or a cell and a shorter rest. -/
theorem passesFrame_succ {n : Nat} (htree : PassesTree n) (hframe : ∀ m < n, PassesFrame m) :
    PassesFrame (n + 1) := by
  intro first f frames text rest h
  rcases of_skipFrom_place h with ⟨after, htext, hdone⟩ | ⟨k, after, hvalue, hcell⟩
  · exact ⟨[], after, n, by omega, (scans_sign f.isBlank_closing).mpr ⟨after, htext, .nil⟩, hdone⟩
  · obtain ⟨v, mid, m, hm, hscans, hdone⟩ := htree _ _ _ hvalue
    obtain ⟨ms, last, l, hl, hmore, hout⟩ := hframe m hm false f frames mid rest hdone
    refine ⟨(k, v) :: ms, last, l, by omega, ?_, hout⟩
    have hcells := hcell (v.tokens ++ (f.tokens false ms ++ [[f.closing]])) last (by simp)
      (scans_append.mpr ⟨mid, hscans, hmore⟩)
    simpa [Frame.tokens] using hcells

/-- Walks of any number of steps pass over trees and frames, by strong induction on the steps. -/
theorem passes (n : Nat) : PassesTree n ∧ PassesFrame n := by
  -- After a cell the rest of its frame is passed over with the steps that the cell has left over.
  induction n using Nat.strongRecOn with
  | ind n ih =>
      cases n with
      | zero =>
          refine ⟨fun _ _ _ h => ?_, fun _ _ _ _ _ h => ?_⟩
          · simp [skipFrom] at h
          · simp [skipFrom] at h
      | succ n =>
          have hlast := ih n n.lt_succ_self
          exact ⟨passesTree_succ hlast.2,
            passesFrame_succ hlast.1 fun m hm => (ih m (by omega)).2⟩

/-- What is passed over is the text of a tree. -/
theorem skipValue_sound {text rest : List Char} (h : skipValue text = .ok rest) :
    ∃ v : Tree, Scans v.tokens text rest := by
  obtain ⟨v, mid, m, -, hscans, hdone⟩ := (passes _).1 [] text rest h
  cases m with
  | zero => simp [skipFrom] at hdone
  | succ m =>
      rw [skipFrom] at hdone
      cases hdone
      exact ⟨v, hscans⟩

/-! ## Passing over any tree -/

/-- The tree is passed over wherever it stands before something that ends it, in few steps. -/
def Tree.Passed (v : Tree) : Prop := ∀ text rest, Scans v.tokens text rest → Ends rest →
  ∃ k, k + 1 + 2 * rest.length ≤ 2 * text.length ∧
    ∀ n frames, skipFrom (n + k) .value frames text = skipFrom n .done frames rest

/-- What may stand after a value ends it, also behind white space. -/
theorem ends_of_scans {c : Char} (hc : isBlank c = false) (hstart : isStart c = false)
    {ts : List (List Char)} {text rest : List Char} (h : Scans ([c] :: ts) text rest) :
    Ends text := by
  obtain ⟨mid, htext, -⟩ := (scans_sign hc).mp h
  obtain ⟨blanks, hblanks, heq⟩ := exists_blanks text
  rw [heq, htext]
  intro d hd
  cases blanks with
  | nil =>
      cases hd
      exact hstart
  | cons b blanks =>
      cases hd
      have hblank := hblanks d List.mem_cons_self
      by_contra hb
      simp [isBlank_of_isStart (Bool.of_not_eq_false hb)] at hblank

theorem Frame.ends {f : Frame} {ms : List (Body × Tree)} {text rest : List Char}
    (h : Scans (f.tokens false ms ++ [[f.closing]]) text rest) : Ends text := by
  cases ms with
  | nil => exact ends_of_scans f.isBlank_closing f.isStart_closing h
  | cons m ms =>
      have hcomma : isBlank ',' = false := rfl
      exact ends_of_scans hcomma rfl h

/-- The rest of a frame is passed over cell by cell.  The steps are paid for by the characters it
takes, two for each. -/
theorem Frame.passed {f : Frame} {ms : List (Body × Tree)} (hms : ∀ m ∈ ms, m.2.Passed)
    {first : Bool} {text rest : List Char}
    (h : Scans (f.tokens first ms ++ [[f.closing]]) text rest) :
    ∃ k, k + 2 * rest.length ≤ 2 * text.length ∧ ∀ n frames,
      skipFrom (n + k) (Frame.place first) (f :: frames) text = skipFrom n .done frames rest := by
  induction ms generalizing first text with
  | nil =>
      obtain ⟨mid, htext, hmid⟩ := (scans_sign f.isBlank_closing).mp h
      rw [scans_nil] at hmid
      subst hmid
      have hlength := length_lt_of_skipBlank htext
      exact ⟨1, by omega, fun n frames => skipFrom_close htext⟩
  | cons m ms ih =>
      obtain ⟨hm, hms⟩ := List.forall_mem_cons.mp hms
      have hcell : Scans (separator first ++ (f.keyTokens m.1 ++ (m.2.tokens ++
          (f.tokens false ms ++ [[f.closing]])))) text rest := by
        simpa [Frame.tokens] using h
      obtain ⟨after, hafter, hscans, hstep⟩ := skipFrom_cell hcell
      obtain ⟨mid, hvalue, hmore⟩ := scans_append.mp hscans
      obtain ⟨k, hk, hskip⟩ := hm after mid hvalue (Frame.ends hmore)
      obtain ⟨l, hl, hrest⟩ := ih hms hmore
      refine ⟨l + k + 1, by omega, fun n frames => ?_⟩
      calc skipFrom (n + (l + k + 1)) (Frame.place first) (f :: frames) text
          = skipFrom (n + l + k) .value (f :: frames) after := by
            rw [← hstep, ← Nat.add_assoc, ← Nat.add_assoc]
        _ = skipFrom (n + l) .done (f :: frames) mid := hskip _ _
        _ = skipFrom n .done frames rest := hrest _ _

/-- A tree whose cells are passed over is passed over. -/
theorem Frame.passed_tree {f : Frame} {ms : List (Body × Tree)} (hms : ∀ m ∈ ms, m.2.Passed) :
    (f.tree ms).Passed := by
  intro text rest h _
  rw [Frame.tokens_tree, scans_sign f.isBlank_opening] at h
  obtain ⟨mid, htext, hmid⟩ := h
  obtain ⟨k, hk, hskip⟩ := Frame.passed hms hmid
  have hlength := length_lt_of_skipBlank htext
  refine ⟨k + 1, by omega, fun n frames => ?_⟩
  rw [← Nat.add_assoc, skipFrom_open htext]
  exact hskip n frames

/-- A tree of one token is passed over, if its token is as a scalar. -/
theorem Tree.passed_of_token {v : Tree} {c : Char} {t : List Char} (hv : v.tokens = [c :: t])
    (hc : isStart c) (hlist : c ≠ '[') (hobject : c ≠ '\x7b')
    (hskip : ∀ rest, Ends rest → skipScalar (c :: (t ++ rest)) = .ok rest) : v.Passed := by
  intro text rest h hends
  rw [hv, scans_cons (isBlank_of_isStart hc)] at h
  obtain ⟨mid, htext, hmid⟩ := h
  rw [scans_nil] at hmid
  subst hmid
  have hlength := length_lt_of_skipBlank htext
  rw [List.length_append] at hlength
  refine ⟨1, by omega, fun n frames => ?_⟩
  rw [skipFrom_scalar, htext, hskip mid hends]
  · rfl
  · simp [htext, hlist]
  · simp [htext, hobject]

/-- Every tree is passed over, by induction on its parts. -/
theorem Tree.passed (v : Tree) : v.Passed := by
  induction v using Tree.induction with
  | scalar s =>
      obtain ⟨c, t, htext, hc, hlist, hobject⟩ := s.valid.exists_start
      refine passed_of_token (by rw [Tree.tokens, htext]) hc hlist hobject fun rest hrest => ?_
      rw [← List.cons_append, ← htext]
      exact skipScalar_scalar s.valid hrest
  | string b =>
      refine passed_of_token (by rw [Tree.tokens, Body.token]) rfl (by decide) (by decide) ?_
      exact fun rest _ => skipScalar_token b rest
  | array vs ih =>
      -- The cells of a list have keys that are never written, so any will do.
      have htree : Frame.list.tree (vs.map fun v => (⟨[], .nil⟩, v)) = .array vs := by
        simp [Frame.tree, Function.comp_def]
      rw [← htree]
      refine Frame.passed_tree fun m hm => ?_
      obtain ⟨v, hv, rfl⟩ := List.mem_map.mp hm
      exact ih v hv
  | object ms ih => exact Frame.passed_tree (f := .object) ih

/-- Any tree is passed over, if something ends it. -/
theorem skipValue_complete {v : Tree} {text rest : List Char} (h : Scans v.tokens text rest)
    (hrest : Ends rest) : skipValue text = .ok rest := by
  obtain ⟨k, hk, hskip⟩ := v.passed text rest h hrest
  obtain ⟨m, hm⟩ : ∃ m, 2 * text.length + 2 = m + 1 + k := ⟨2 * text.length + 1 - k, by omega⟩
  rw [skipValue, hm, hskip, skipFrom]

end Rebac.Json
