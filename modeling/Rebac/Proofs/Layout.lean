import Mathlib.Data.List.Chain
import Rebac.Language.Grammar

/-!
# The layout of a text

A text is tokens with trivia before, between and after them.  `Spells` says so without any reading:
trivia are blanks and closed comments, and some must stand between a name and a keyword, which
would otherwise be part of the name.

`Scans` takes the tokens off the front of a text one by one, each after skipping, as the grammar
does.  The two agree if no names stand side by side (`Spells.scans`, `Scans.spells`), since
skipping takes exactly the trivia (`Trivia.trivia_append`, `exists_trivia`).
-/

namespace Rebac.Language

/-! ## Trivia -/

/-- White space and closed comments. -/
inductive Trivia : List Char → Prop where
  | nil : Trivia []
  | blank {c : Char} {w : List Char} : c ∈ [' ', '\t', '\r', '\n'] → Trivia w → Trivia (c :: w)
  /-- A comment from `//` to the end of the line. -/
  | line {body w : List Char} : '\n' ∉ body → Trivia w → Trivia ('/' :: '/' :: (body ++ '\n' :: w))
  /-- A comment from `/*` to the first `*/`. -/
  | block {body w : List Char} : ¬ ['*', '/'] <:+: body → Trivia w →
      Trivia ('/' :: '*' :: (body ++ '*' :: '/' :: w))

/-- Trivia at the end of a text, where a comment line need not be ended. -/
inductive FinalTrivia : List Char → Prop where
  | closed {w : List Char} : Trivia w → FinalTrivia w
  | unended {w body : List Char} : Trivia w → '\n' ∉ body → FinalTrivia (w ++ '/' :: '/' :: body)

theorem isBlank_iff {c : Char} : isBlank c = true ↔ c ∈ [' ', '\t', '\r', '\n'] := by
  simp [isBlank]

theorem Trivia.append {w w' : List Char} (h : Trivia w) (h' : Trivia w') : Trivia (w ++ w') := by
  induction h with
  | nil => exact h'
  | blank hc _ ih => exact .blank hc ih
  | @line body w hbody _ ih => simpa using Trivia.line hbody ih
  | @block body w hbody _ ih => simpa using Trivia.block hbody ih

theorem Trivia.append_final {w w' : List Char} (h : Trivia w) (h' : FinalTrivia w') :
    FinalTrivia (w ++ w') := by
  cases h' with
  | closed h' => exact .closed (h.append h')
  | unended h' hbody =>
      rw [← List.append_assoc]
      exact .unended (h.append h') hbody

/-! ### Skipping -/

/-- In a comment line, skipping goes on after the first line feed. -/
theorem skipFrom_line {body : List Char} (h : '\n' ∉ body) (r : List Char) :
    skipFrom .line (body ++ '\n' :: r) = trivia r := by
  induction body with
  | nil => simp [skipFrom, trivia]
  | cons c body ih =>
      rw [List.mem_cons, not_or] at h
      simpa [skipFrom, Ne.symm h.1] using ih h.2

theorem skipFrom_line_unended {body : List Char} (h : '\n' ∉ body) : skipFrom .line body = [] := by
  induction body with
  | nil => rfl
  | cons c body ih =>
      rw [List.mem_cons, not_or] at h
      simpa [skipFrom, Ne.symm h.1] using ih h.2

/-- In a comment block, a character that does not begin `*/` is skipped. -/
theorem skipFrom_block_cons {c : Char} {r : List Char} (h : ¬ ['*', '/'] <+: c :: r)
    (start : List Char) : skipFrom (.block start) (c :: r) = skipFrom (.block start) r := by
  rw [skipFrom]
  rintro _ rfl rfl
  exact h (by simp)

/-- A comment block is skipped up to its first `*/`. -/
theorem skipFrom_block {body : List Char} (h : ¬ ['*', '/'] <:+: body) (start r : List Char) :
    skipFrom (.block start) (body ++ '*' :: '/' :: r) = trivia r := by
  induction body with
  | nil => simp [skipFrom, trivia]
  | cons c body ih =>
      rw [List.infix_cons_iff, not_or] at h
      rw [List.cons_append, skipFrom_block_cons, ih h.2]
      -- `*/` would have to begin in the body, whose last character is followed by `*`.
      intro hprefix
      apply h.1
      cases body with
      | nil => simp at hprefix
      | cons d body => simpa using hprefix

theorem skipFrom_block_unended {body : List Char} (h : ¬ ['*', '/'] <:+: body)
    (start : List Char) : skipFrom (.block start) body = start := by
  induction body with
  | nil => rfl
  | cons c body ih =>
      rw [List.infix_cons_iff, not_or] at h
      rw [skipFrom_block_cons h.1, ih h.2]

/-- Trivia are skipped. -/
theorem Trivia.trivia_append {w : List Char} (h : Trivia w) (r : List Char) :
    trivia (w ++ r) = trivia r := by
  induction h with
  | nil => rfl
  | blank hc _ ih => rw [List.cons_append, trivia_blank (isBlank_iff.mpr hc), ih]
  | line hbody _ ih =>
      simp only [List.cons_append, List.append_assoc, trivia_line, skipFrom_line hbody, ih]
  | block hbody _ ih =>
      simp only [List.cons_append, List.append_assoc, trivia_block, skipFrom_block hbody, ih]

/-- Trivia at the end of a text are skipped to the end. -/
theorem FinalTrivia.trivia_eq_nil {w : List Char} (h : FinalTrivia w) : trivia w = [] := by
  cases h with
  | closed h => simpa [trivia, skipFrom] using h.trivia_append []
  | unended h hbody => rw [h.trivia_append, trivia_line, skipFrom_line_unended hbody]

/-- A text that holds `*/` can be split at the first one. -/
theorem exists_block_end {r : List Char} (h : ['*', '/'] <:+: r) :
    ∃ body r', ¬ ['*', '/'] <:+: body ∧ r = body ++ '*' :: '/' :: r' := by
  induction r with
  | nil => simp at h
  | cons c r ih =>
      by_cases hprefix : ['*', '/'] <+: c :: r
      · obtain ⟨r', hr'⟩ := hprefix
        exact ⟨[], r', by simp, hr'.symm⟩
      · obtain ⟨body, r', hbody, rfl⟩ := ih ((List.infix_cons_iff.mp h).resolve_left hprefix)
        refine ⟨c :: body, r', ?_, rfl⟩
        rw [List.infix_cons_iff, not_or]
        refine ⟨fun hstart => hprefix ?_, hbody⟩
        exact hstart.trans (List.prefix_append (c :: body) _)

/-- Skipping stops at once, or takes a blank or a comment and goes on, or ends in a comment line. -/
theorem trivia_step (r : List Char) : trivia r = r ∨
    (∃ w r', Trivia w ∧ w ≠ [] ∧ r = w ++ r' ∧ trivia r = trivia r') ∨
      (trivia r = [] ∧ FinalTrivia r) := by
  rcases r with - | ⟨c, r⟩
  · exact .inl rfl
  by_cases hblank : isBlank c = true
  · exact .inr (.inl ⟨[c], r, .blank (isBlank_iff.mp hblank) .nil, by simp, rfl,
      trivia_blank hblank r⟩)
  by_cases hslash : c = '/'
  · subst hslash
    by_cases hline : r.head? = some '/'
    · obtain ⟨r, rfl⟩ := List.head?_eq_some_iff.mp hline
      by_cases hend : '\n' ∈ r
      · obtain ⟨body, r', rfl, hbody⟩ := List.eq_append_cons_of_mem hend
        refine .inr (.inl ⟨_, r', .line hbody .nil, by simp, by simp, ?_⟩)
        rw [trivia_line, skipFrom_line hbody]
      · exact .inr (.inr ⟨by rw [trivia_line, skipFrom_line_unended hend], .unended .nil hend⟩)
    by_cases hblock : r.head? = some '*'
    · obtain ⟨r, rfl⟩ := List.head?_eq_some_iff.mp hblock
      by_cases hend : ['*', '/'] <:+: r
      · obtain ⟨body, r', hbody, rfl⟩ := exists_block_end hend
        refine .inr (.inl ⟨_, r', .block hbody .nil, by simp, by simp, ?_⟩)
        rw [trivia_block, skipFrom_block hbody]
      · exact .inl (by rw [trivia_block, skipFrom_block_unended hend])
    exact .inl (trivia_slash hline hblock)
  · exact .inl (trivia_cons (by simpa using hblank) hslash r)

/-- What is skipped is trivia. -/
theorem exists_trivia (r : List Char) :
    (∃ w, Trivia w ∧ r = w ++ trivia r) ∨ (trivia r = [] ∧ FinalTrivia r) := by
  induction hn : r.length using Nat.strong_induction_on generalizing r with
  | _ n ih =>
      rcases trivia_step r with hstop | ⟨w, r', hw, hne, rfl, hskip⟩ | hfinal
      · exact .inl ⟨[], .nil, hstop.symm⟩
      · have hlt : r'.length < n := by
          have := List.length_pos_iff.mpr hne
          rw [← hn, List.length_append]
          omega
        rw [hskip]
        rcases ih r'.length hlt r' rfl with ⟨w', hw', hr'⟩ | ⟨hnil, hfinal⟩
        · exact .inl ⟨w ++ w', hw.append hw', by rw [List.append_assoc, ← hr']⟩
        · exact .inr ⟨hnil, hw.append_final hfinal⟩
      · exact .inr hfinal

theorem trivia_trivia (r : List Char) : trivia (trivia r) = trivia r := by
  rcases exists_trivia r with ⟨w, hw, hr⟩ | ⟨hnil, _⟩
  · rw [← hw.trivia_append (trivia r), ← hr]
  · rw [hnil]
    rfl

theorem length_trivia_le (r : List Char) : (trivia r).length ≤ r.length := by
  rcases exists_trivia r with ⟨w, _, hr⟩ | ⟨hnil, _⟩
  · have := congrArg List.length hr
    rw [List.length_append] at this
    omega
  · simp [hnil]

/-! ## Tokens -/

/-- The words of the grammar. -/
inductive Keyword where
  | definition
  | relation
  | permission
  deriving Repr, DecidableEq

/-- How a keyword is written. -/
def Keyword.text : Keyword → String
  | .definition => "definition"
  | .relation => "relation"
  | .permission => "permission"

/-- The signs of the grammar. -/
inductive Sign where
  | leftBrace
  | rightBrace
  | colon
  | bar
  | hash
  | equals
  | plus
  | ampersand
  | minus
  | arrow
  | leftParen
  | rightParen
  deriving Repr, DecidableEq

/-- How a sign is written. -/
def Sign.text : Sign → String
  | .leftBrace => "\x7b"
  | .rightBrace => "\x7d"
  | .colon => ":"
  | .bar => "|"
  | .hash => "#"
  | .equals => "="
  | .plus => "+"
  | .ampersand => "&"
  | .minus => "-"
  | .arrow => "->"
  | .leftParen => "("
  | .rightParen => ")"

/-- A lower case letter, then lower case letters, digits and underscores. -/
def IsName (n : String) : Prop :=
  ∃ c cs, n.toList = c :: cs ∧ c.isLower ∧ ∀ d ∈ cs, d.isLower ∨ d.isDigit ∨ d = '_'

/-- A piece of a text that trivia do not divide. -/
inductive Token where
  | keyword (k : Keyword)
  | name (n : String)
  | sign (s : Sign)
  deriving Repr, DecidableEq

namespace Token

/-- How a token is written. -/
def text : Token → List Char
  | keyword k => k.text.toList
  | name n => n.toList
  | sign s => s.text.toList

/-- Whether a token is a name. -/
def isName : Token → Bool
  | name _ => true
  | _ => false

/-- Whether a token is a keyword. -/
def isKeyword : Token → Bool
  | keyword _ => true
  | _ => false

/-- A token that can be read back: if it is a name, it has the form of one. -/
def Valid : Token → Prop
  | name n => IsName n
  | _ => True

end Token

/-- The text spells the tokens in order, with trivia before, between and after them.  Between a name
and a keyword there must be some.  The text stands after a name if `afterName` is set. -/
inductive Spells : (afterName : Bool) → List Token → List Char → Prop where
  | done {afterName : Bool} {w : List Char} : FinalTrivia w → Spells afterName [] w
  | token {afterName : Bool} {t : Token} {ts : List Token} {w r : List Char} : Trivia w →
      (afterName = true → t.isKeyword = true → w ≠ []) → Spells t.isName ts r →
        Spells afterName (t :: ts) (w ++ (t.text ++ r))

/-! ## Characters -/

theorem isNameStart_iff {c : Char} : isNameStart c = true ↔ c.isLower = true := by
  have hlower : c.isLower = (decide (c.val ≥ 'a'.val) && decide (c.val ≤ 'z'.val)) := rfl
  simp [isNameStart, hlower, Char.le_def]

theorem isNamePart_iff {c : Char} :
    isNamePart c = true ↔ c.isLower = true ∨ c.isDigit = true ∨ c = '_' := by
  simp [isNamePart, isNameStart_iff, Char.isDigit, Char.le_def]

/-- The text goes on with no character of a name. -/
def Stops (r : List Char) : Prop := ∀ c ∈ r.head?, isNamePart c = false

theorem stops_of_blank_or_slash {c : Char} (h : isBlank c = true ∨ c = '/') (r : List Char) :
    Stops (c :: r) := by
  have hblanks : ∀ c ∈ [' ', '\t', '\r', '\n'], isNamePart c = false := by
    simp [isNamePart, isNameStart]
  rintro _ ⟨⟩
  rcases h with h | rfl
  · exact hblanks c (isBlank_iff.mp h)
  · decide

/-- Trivia begin with a blank or a `/`. -/
theorem Trivia.stops {w : List Char} (h : Trivia w) (hne : w ≠ []) (r : List Char) :
    Stops (w ++ r) := by
  cases h with
  | nil => exact absurd rfl hne
  | blank hc _ => exact stops_of_blank_or_slash (.inl (isBlank_iff.mpr hc)) _
  | line => exact stops_of_blank_or_slash (.inr rfl) _
  | block => exact stops_of_blank_or_slash (.inr rfl) _

theorem FinalTrivia.stops {w : List Char} (h : FinalTrivia w) : Stops w := by
  cases h with
  | closed h =>
      by_cases hne : w = []
      · simp [hne, Stops]
      · simpa using h.stops hne []
  | @unended w body h _ =>
      by_cases hne : w = []
      · subst hne
        exact stops_of_blank_or_slash (.inr rfl) _
      · exact h.stops hne _

theorem Sign.stops (s : Sign) (r : List Char) : Stops (s.text.toList ++ r) := by
  cases s <;> (rintro _ ⟨⟩; decide)

theorem Keyword.not_stops (k : Keyword) (r : List Char) : ¬ Stops (k.text.toList ++ r) := by
  cases k <;> (intro h; exact absurd (h _ rfl) (by decide))

/-- A token begins with no trivia. -/
theorem Token.Valid.trivia_append {t : Token} (h : t.Valid) (r : List Char) :
    trivia (t.text ++ r) = t.text ++ r := by
  cases t with
  | keyword k => cases k <;> exact trivia_cons (by decide) (by decide) _
  | sign s => cases s <;> exact trivia_cons (by decide) (by decide) _
  | name n =>
      obtain ⟨c, cs, htext, hlower, _⟩ := h
      simp only [Token.text, htext, List.cons_append]
      have hblanks : ∀ c ∈ [' ', '\t', '\r', '\n'], c.isLower = false := by simp
      apply trivia_cons
      · rw [Bool.eq_false_iff]
        intro hblank
        simp [hblanks c (isBlank_iff.mp hblank)] at hlower
      · rintro rfl
        simp at hlower

theorem Token.Valid.text_ne_nil {t : Token} (h : t.Valid) : t.text ≠ [] := by
  cases t with
  | keyword k => cases k <;> decide
  | sign s => cases s <;> decide
  | name n =>
      obtain ⟨c, cs, htext, _⟩ := h
      simp [Token.text, htext]

/-! ## Scanning -/

/-- Tokens are taken one after the other, each after the trivia in front of it, and a name as far as it
goes. -/
inductive Scans : List Token → List Char → List Char → Prop where
  | nil {r : List Char} : Scans [] r r
  | cons {t : Token} {ts : List Token} {r mid rest : List Char} : t.Valid →
      trivia r = t.text ++ mid → (t.isName = true → Stops mid) → Scans ts mid rest →
        Scans (t :: ts) r rest

theorem scans_singleton {t : Token} {r rest : List Char} : Scans [t] r rest ↔
    t.Valid ∧ trivia r = t.text ++ rest ∧ (t.isName = true → Stops rest) := by
  constructor
  · intro h
    cases h with
    | cons hvalid htext hstops hnil =>
        cases hnil
        exact ⟨hvalid, htext, hstops⟩
  · rintro ⟨hvalid, htext, hstops⟩
    exact .cons hvalid htext hstops .nil

/-- Tokens in a row are scanned one part after the other. -/
theorem scans_append {ts us : List Token} {r rest : List Char} :
    Scans (ts ++ us) r rest ↔ ∃ mid, Scans ts r mid ∧ Scans us mid rest := by
  constructor
  · intro h
    induction ts generalizing r with
    | nil => exact ⟨r, .nil, h⟩
    | cons t ts ih =>
        cases h with
        | cons hvalid htext hstops hrest =>
            obtain ⟨mid, hts, hus⟩ := ih hrest
            exact ⟨mid, .cons hvalid htext hstops hts, hus⟩
  · rintro ⟨mid, hts, hus⟩
    induction hts with
    | nil => exact hus
    | cons hvalid htext hstops _ ih => exact .cons hvalid htext hstops (ih hus)

theorem scans_cons {t : Token} {ts : List Token} {r rest : List Char} :
    Scans (t :: ts) r rest ↔ ∃ mid, Scans [t] r mid ∧ Scans ts mid rest := by
  rw [← scans_append, List.singleton_append]

/-- Each token takes a character at least. -/
theorem Scans.length_le {ts : List Token} {r rest : List Char} (h : Scans ts r rest) :
    rest.length + ts.length ≤ r.length := by
  induction h with
  | nil => simp
  | @cons t ts r mid rest hvalid htext _ _ ih =>
      have hpos := List.length_pos_iff.mpr hvalid.text_ne_nil
      have hle := length_trivia_le r
      rw [htext, List.length_append] at hle
      rw [List.length_cons]
      omega

/-- No two names stand side by side. -/
def NamesApart (ts : List Token) : Prop := ts.IsChain fun t u => t.isName = true → u.isName = false

/-- After a name the text goes on with no character of a name. -/
theorem Spells.stops {ts : List Token} {r : List Char} (h : Spells true ts r)
    (hhead : ∀ t ∈ ts.head?, t.isName = false) : Stops r := by
  cases h with
  | done hfinal => exact hfinal.stops
  | @token _ t ts w r hw hgap _ =>
      by_cases hne : w = []
      · subst hne
        cases t with
        | keyword k => exact absurd rfl (hgap rfl rfl)
        | name n => simp [Token.isName] at hhead
        | sign s => exact s.stops r
      · exact hw.stops hne _

/-- A text is scanned into the tokens that it spells. -/
theorem Spells.scans {afterName : Bool} {ts : List Token} {r : List Char}
    (h : Spells afterName ts r) (hvalid : ∀ t ∈ ts, t.Valid) (hapart : NamesApart ts) :
    ∃ rest, Scans ts r rest ∧ trivia rest = [] := by
  induction h with
  | done hfinal => exact ⟨_, .nil, hfinal.trivia_eq_nil⟩
  | @token _ t ts w r hw _ hspells ih =>
      rw [List.forall_mem_cons] at hvalid
      rw [NamesApart, List.isChain_cons] at hapart
      obtain ⟨rest, hscans, hrest⟩ := ih hvalid.2 hapart.2
      refine ⟨rest, .cons hvalid.1 ?_ ?_ hscans, hrest⟩
      · rw [hw.trivia_append, hvalid.1.trivia_append]
      · intro hname
        rw [hname] at hspells
        exact hspells.stops fun u hu => hapart.1 u hu hname

/-- A text spells the tokens into which it is scanned. -/
theorem Scans.spells {afterName : Bool} {ts : List Token} {r rest : List Char}
    (h : Scans ts r rest) (hrest : trivia rest = []) (hstops : afterName = true → Stops r) :
    Spells afterName ts r := by
  induction h generalizing afterName with
  | @nil r =>
      rcases exists_trivia r with ⟨w, hw, hr⟩ | ⟨_, hfinal⟩
      · rw [hrest, List.append_nil] at hr
        exact .done (.closed (hr ▸ hw))
      · exact .done hfinal
  | @cons t ts r mid rest hvalid htext hname _ ih =>
      have hne : trivia r ≠ [] := by
        simp [htext, hvalid.text_ne_nil]
      rcases exists_trivia r with ⟨w, hw, hr⟩ | ⟨hnil, _⟩
      · rw [htext] at hr
        rw [hr]
        refine .token hw ?_ (ih hrest hname)
        -- Without trivia the keyword would have gone on with the name.
        rintro hafter hkeyword rfl
        cases t with
        | keyword k =>
            rw [hr] at hstops
            exact k.not_stops mid (hstops hafter)
        | name n => simp [Token.isKeyword] at hkeyword
        | sign s => simp [Token.isKeyword] at hkeyword
      · exact absurd hnil hne

end Rebac.Language
