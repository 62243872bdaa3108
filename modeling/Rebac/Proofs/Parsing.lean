import Mathlib.Data.List.TakeWhile
import Rebac.Proofs.Layout

/-!
# What the grammar reads

A schema text is first read as a list of definitions.  The grammar is ordered and greedy: of
several alternatives the first that fits is taken, and a repetition takes all it can.  Here it is
compared with a grammar of tokens that has neither order nor greed (`Tree.IsExpression`,
`Item.Written`, `Definition.Written`).

For each parser there are two lemmas.  What it reads has tokens that the text was scanned into
(`_sound`), and tokens that the text is scanned into are read (`_complete`), as long as the text
goes on with nothing that the parser would have taken in addition (`Ends`, `NoArrow`).  Parsers
are always run where trivia have been skipped.
-/

namespace Rebac.Language

/-! ## What parsers read -/

namespace Parser

variable {α β : Type} {text rest : List Char}

/-- What a parser reads, without its trace. -/
def run (p : Parser α) (text : List Char) : Option (α × List Char) := (p text).result

@[simp] theorem run_pure (a : α) : (pure a : Parser α).run text = some (a, text) := rfl

@[simp] theorem run_rule (r : Rule) (p : Parser α) : (rule r p).run text = p.run text := rfl

@[simp] theorem run_skip : skip.run text = some ((), trivia text) := rfl

/-- Parsers run one after the other, each on what the one before it left. -/
@[simp] theorem run_bind (p : Parser α) (f : α → Parser β) :
    (p >>= f).run text = (p.run text).bind fun x => (f x.1).run x.2 := by
  change (andThen p f text).result = _
  rw [andThen, run]
  rcases p text with ⟨_ | ⟨a, r⟩, t⟩
  · rfl
  · rfl

/-- The second parser is asked only where the first reads nothing. -/
@[simp] theorem run_orElse (p q : Parser α) :
    (orElse p q).run text = (p.run text).or (q.run text) := by
  rw [run, orElse, run]
  rcases p text with ⟨_ | ⟨a, r⟩, t⟩
  · rfl
  · rfl

@[simp] theorem run_succeed (a : α) : (succeed a).run text = some (a, text) := rfl

theorem dropPrefix?_eq_some_iff {cs text rest : List Char} :
    dropPrefix? cs text = some rest ↔ text = cs ++ rest := by
  fun_induction dropPrefix? cs text with
  | case1 text => simp
  | case2 c cs => simp
  | case3 c cs text ih => simpa using ih
  | case4 c cs d text hne => simp [Ne.symm hne]

/-- A literal is read exactly where the text begins with it. -/
theorem run_literal {s : String} {x : Unit × List Char} :
    (literal s).run text = some x ↔ text = s.toList ++ x.2 := by
  rw [run, literal, Option.map_eq_some_iff]
  simp only [dropPrefix?_eq_some_iff]
  constructor
  · rintro ⟨rest, rfl, rfl⟩
    rfl
  · intro h
    exact ⟨x.2, h, rfl⟩

theorem run_notBefore {s : String} (h : (literal s).run text = none) :
    (notBefore s).run text = some ((), text) := by
  rw [run, literal, Option.map_eq_none_iff] at h
  simp [run, notBefore, h]

theorem run_notBefore_eq_some {s : String} {x : Unit × List Char}
    (h : (notBefore s).run text = some x) : x.2 = text := by
  rw [run, notBefore] at h
  simp only at h
  split at h
  · cases h
  · cases h
    rfl

@[simp] theorem run_optional (p : Parser α) : (optional p).run text =
    ((p.run text).map fun x => (some x.1, x.2)).or (some (none, text)) := by
  rw [optional, run_orElse, run_bind]
  cases p.run text with
  | none => rfl
  | some x => rfl

/-! ### Repetitions -/

/-- The parser reads values one after the other. -/
inductive Repeats (p : Parser α) : List α → List Char → List Char → Prop where
  | nil {r : List Char} : Repeats p [] r r
  | cons {a : α} {as : List α} {r mid rest : List Char} : p.run r = some (a, mid) →
      Repeats p as mid rest → Repeats p (a :: as) r rest

/-- A bounded repetition reads values in turn. -/
theorem repeats_of_run_manyUpTo {p : Parser α} {n : Nat} {as : List α} {r : List Char}
    (h : (manyUpTo p n).run r = some (as, rest)) : Repeats p as r rest := by
  induction n generalizing as r with
  | zero =>
      cases h
      exact .nil
  | succ n ih =>
      rw [manyUpTo, run_orElse, run_bind, Option.or_eq_some_iff] at h
      rcases h with h | ⟨_, h⟩
      · obtain ⟨⟨a, mid⟩, hp, h⟩ := Option.bind_eq_some_iff.mp h
        rw [run_bind] at h
        obtain ⟨⟨as', rest'⟩, hmany, h⟩ := Option.bind_eq_some_iff.mp h
        cases h
        exact .cons hp (ih hmany)
      · cases h
        exact .nil

/-- Values in turn are read by a repetition if the bound allows it and no further value can be
read after them. -/
theorem Repeats.run_manyUpTo {p : Parser α} {as : List α} {r : List Char}
    (h : Repeats p as r rest) (hstop : p.run rest = none) {n : Nat} (hn : as.length ≤ n) :
    (manyUpTo p n).run r = some (as, rest) := by
  induction h generalizing n with
  | nil =>
      cases n with
      | zero => rfl
      | succ n => simp [manyUpTo, hstop]
  | cons hp _ ih =>
      cases n with
      | zero => simp at hn
      | succ n =>
          have hrest := ih hstop (Nat.le_of_succ_le_succ hn)
          simp [manyUpTo, hp, hrest]

end Parser

open Rebac.Language.Parser

/-! ## Tokens -/

section Tokens

variable {r rest : List Char}

/-- A keyword is read exactly where it is the next token. -/
theorem run_keyword {k : Keyword} {x : Unit × List Char} :
    (literal k.text).run (trivia r) = some x ↔ Scans [.keyword k] r x.2 := by
  rw [run_literal, scans_singleton]
  simp [Token.Valid, Token.isName, Token.text]

/-- A sign is read exactly where it is the next token. -/
theorem run_sign {s : Sign} {x : Unit × List Char} :
    (literal s.text).run (trivia r) = some x ↔ Scans [.sign s] r x.2 := by
  rw [run_literal, scans_singleton]
  simp [Token.Valid, Token.isName, Token.text]

theorem stops_dropWhile (r : List Char) : Stops (r.dropWhile isNamePart) := by
  intro c hc
  simpa [Option.mem_def.mp hc] using List.head?_dropWhile_not isNamePart r

theorem Stops.takeWhile_eq_nil (h : Stops r) : r.takeWhile isNamePart = [] := by
  cases r with
  | nil => rfl
  | cons c r => simp [h c rfl]

theorem run_identifier_cons (c : Char) (text : List Char) : identifier.run (c :: text) =
    if isNameStart c = true then
      some (String.ofList (c :: text.takeWhile isNamePart), text.dropWhile isNamePart)
    else none := by
  change Outcome.result (if isNameStart c = true then _ else _) = _
  split
  · rfl
  · rfl

/-- A name is read exactly where it is the next token.  The end is forced on both sides: reading
takes all characters of the name, and a token ends where no such character follows. -/
theorem run_identifier {n : String} :
    identifier.run (trivia r) = some (n, rest) ↔ Scans [.name n] r rest := by
  rw [scans_singleton]
  simp only [Token.Valid, Token.text, Token.isName, forall_const]
  generalize trivia r = text
  constructor
  · intro h
    cases text with
    | nil => cases h
    | cons c text =>
        rw [run_identifier_cons] at h
        split at h
        · rename_i hc
          cases h
          refine ⟨⟨c, text.takeWhile isNamePart, by simp, isNameStart_iff.mp hc, ?_⟩, by simp,
            stops_dropWhile text⟩
          intro d hd
          exact isNamePart_iff.mp (List.mem_takeWhile_imp hd)
        · cases h
  · rintro ⟨⟨c, cs, hn, hc, hcs⟩, rfl, hstops⟩
    have hall : ∀ d ∈ cs, isNamePart d = true := fun d hd => isNamePart_iff.mpr (hcs d hd)
    have hname : String.ofList (c :: cs) = n := by rw [← hn, String.ofList_toList]
    have htake := hstops.takeWhile_eq_nil
    have hdrop : rest.dropWhile isNamePart = rest := by
      simpa [htake] using List.takeWhile_append_dropWhile (p := isNamePart) (l := rest)
    rw [hn, List.cons_append, run_identifier_cons, if_pos (isNameStart_iff.mpr hc),
      List.takeWhile_append_of_pos hall, List.dropWhile_append_of_pos hall, htake, hdrop,
      List.append_nil, hname]

end Tokens

/-- A literal is not read where the text begins otherwise. -/
theorem run_literal_eq_none {s : String} {c : Char} {text : List Char} (hs : s.toList.head? = some c)
    (htext : text.head? ≠ some c) : (literal s).run text = none := by
  rw [Option.eq_none_iff_forall_ne_some]
  intro x hx
  apply htext
  obtain ⟨cs, hcs⟩ := List.head?_eq_some_iff.mp hs
  rw [run_literal.mp hx, hcs]
  rfl

/-! ## Repetition -/

/-- Each value is written in turn. -/
inductive Each {α : Type} (W : α → List Token → Prop) : List α → List Token → Prop where
  | nil : Each W [] []
  | cons {a : α} {as : List α} {ts us : List Token} : W a ts → Each W as us →
      Each W (a :: as) (ts ++ us)

section Repetition

variable {α : Type} {p : Parser α} {W : α → List Token → Prop} {as : List α} {r rest : List Char}

/-- If what is read has been scanned as it is written, so have values in turn. -/
theorem repeats_scans (hp : ∀ {r a rest}, p.run r = some (a, rest) → ∃ ts, W a ts ∧ Scans ts r rest)
    (h : Repeats p as r rest) : ∃ ts, Each W as ts ∧ Scans ts r rest := by
  induction h with
  | nil => exact ⟨[], .nil, .nil⟩
  | cons hrun _ ih =>
      obtain ⟨ts, hts, hscans⟩ := hp hrun
      obtain ⟨us, hus, hrest⟩ := ih
      exact ⟨ts ++ us, .cons hts hus, scans_append.mpr ⟨_, hscans, hrest⟩⟩

/-- If a value is read wherever the text goes on as it may (`N`), and the text may go on with
another value, then all values are read in turn. -/
theorem Each.repeats {N : List Char → Prop} {ts : List Token}
    (hp : ∀ {a ts r rest}, W a ts → Scans ts r rest → N rest → p.run r = some (a, rest))
    (hnext : ∀ {a ts r rest}, W a ts → Scans ts r rest → N r)
    (h : Each W as ts) (hscans : Scans ts r rest) (hrest : N rest) :
    Repeats p as r rest ∧ N r := by
  induction h generalizing r with
  | nil =>
      cases hscans
      exact ⟨.nil, hrest⟩
  | cons hts _ ih =>
      obtain ⟨mid, hfirst, hmid⟩ := scans_append.mp hscans
      obtain ⟨hrepeats, hmidnext⟩ := ih hmid
      exact ⟨.cons (hp hts hfirst hmidnext) hrepeats, hnext hts hfirst⟩

/-- There are no more values than tokens. -/
theorem Each.length_le {ts : List Token} (hW : ∀ {a ts}, W a ts → ts ≠ []) (h : Each W as ts) :
    as.length ≤ ts.length := by
  induction h with
  | nil => simp
  | cons hts _ ih =>
      have := List.length_pos_iff.mpr (hW hts)
      simp only [List.length_cons, List.length_append]
      omega

/-- What a repetition reads is written in turn. -/
theorem many_sound (hp : ∀ {r a rest}, p.run r = some (a, rest) → ∃ ts, W a ts ∧ Scans ts r rest)
    (h : (many p).run r = some (as, rest)) : ∃ ts, Each W as ts ∧ Scans ts r rest :=
  repeats_scans hp (repeats_of_run_manyUpTo h)

/-- Values written in turn are read by a repetition, up to a place where it must stop. -/
theorem many_complete {N : List Char → Prop} {ts : List Token}
    (hp : ∀ {a ts r rest}, W a ts → Scans ts r rest → N rest → p.run r = some (a, rest))
    (hnext : ∀ {a ts r rest}, W a ts → Scans ts r rest → N r) (hW : ∀ {a ts}, W a ts → ts ≠ [])
    (h : Each W as ts) (hscans : Scans ts r rest) (hrest : N rest) (hstop : p.run rest = none) :
    (many p).run r = some (as, rest) ∧ N r := by
  obtain ⟨hrepeats, hr⟩ := h.repeats hp hnext hscans hrest
  have hlength := h.length_le hW
  have hscanned := hscans.length_le
  exact ⟨hrepeats.run_manyUpTo hstop (by omega), hr⟩

end Repetition

theorem each_eq_iff {α : Type} {f : α → List Token} {as : List α} {ts : List Token} :
    Each (fun a ts => ts = f a) as ts ↔ ts = as.flatMap f := by
  constructor
  · intro h
    induction h with
    | nil => rfl
    | cons hts _ ih => rw [hts, ih, List.flatMap_cons]
  · rintro rfl
    induction as with
    | nil => exact .nil
    | cons a as ih => exact .cons rfl ih

theorem intercalate_cons_eq_flatMap {α β : Type} (sep : List β) (f : α → List β) (a : α)
    (as : List α) : sep.intercalate ((a :: as).map f) = f a ++ as.flatMap fun b => sep ++ f b := by
  induction as generalizing a with
  | nil => simp [List.intercalate]
  | cons b as ih =>
      rw [List.map_cons, List.map_cons, List.intercalate_cons_cons, ← List.map_cons, ih,
        List.flatMap_cons, List.append_assoc, List.append_assoc]

/-! ## Relations -/

end Rebac.Language

namespace Rebac

open Rebac.Language

/-- A type, or a type and a relation after `#`. -/
def Subject.tokens (u : Subject) : List Token :=
  match u.relation with
  | none => [.name u.type]
  | some n => [.name u.type, .sign .hash, .name n]

/-- A relation with its subjects, divided by `|`. -/
def Relation.tokens (r : Relation) : List Token :=
  [.keyword .relation, .name r.name, .sign .colon] ++
    [.sign .bar].intercalate (r.subjects.map Subject.tokens)

end Rebac

namespace Rebac.Language

open Rebac.Language.Parser

/-- A subject is read off its tokens. -/
theorem subjectTypeRef_sound {r rest : List Char} {u : Subject}
    (h : subjectTypeRef.run (trivia r) = some (u, rest)) : Scans u.tokens r rest := by
  simp only [subjectTypeRef, run_rule, run_bind, run_optional, run_skip, run_pure,
    Option.bind_eq_some_iff, Option.bind_some, Option.or_eq_some_iff, Option.map_eq_some_iff] at h
  obtain ⟨⟨type, mid⟩, htype, ⟨relation, rest'⟩, hrelation, h⟩ := h
  cases h
  rw [run_identifier] at htype
  rcases hrelation with ⟨⟨n, rest'⟩, ⟨x, hhash, hn⟩, h⟩ | ⟨_, h⟩
  · cases h
    have hhash := (run_sign (s := .hash)).mp hhash
    rw [run_identifier] at hn
    exact scans_cons.mpr ⟨_, htype, scans_cons.mpr ⟨_, hhash, hn⟩⟩
  · cases h
    exact htype

/-- The tokens of a subject are read, if no relation follows that could belong to it. -/
theorem subjectTypeRef_complete {r rest : List Char} {u : Subject} (h : Scans u.tokens r rest)
    (hnext : (trivia rest).head? ≠ some '#') : subjectTypeRef.run (trivia r) = some (u, rest) := by
  obtain ⟨type, relation⟩ := u
  cases relation with
  | none =>
      have htype := run_identifier.mpr h
      have hhash : (literal "#").run (trivia rest) = none := run_literal_eq_none rfl hnext
      simp [subjectTypeRef, htype, hhash]
  | some n =>
      obtain ⟨mid, htype, h⟩ := scans_cons.mp h
      obtain ⟨mid', hhash, hn⟩ := scans_cons.mp h
      have htype := run_identifier.mpr htype
      have hhash : (literal "#").run (trivia mid) = some ((), mid') := (run_sign (s := .hash)).mpr hhash
      have hn := run_identifier.mpr hn
      simp [subjectTypeRef, htype, hhash, hn]

/-- The next token is the one scanned first. -/
theorem Scans.head?_trivia {t : Token} {ts : List Token} {r rest : List Char}
    (h : Scans (t :: ts) r rest) : (trivia r).head? = t.text.head? := by
  cases h with
  | cons hvalid htext _ _ =>
      rw [htext, List.head?_append_of_ne_nil _ hvalid.text_ne_nil]

/-- A name begins with a lower case letter. -/
theorem Scans.head?_ne_of_not_isLower {n : String} {ts : List Token} {r rest : List Char} {c : Char}
    (h : Scans (.name n :: ts) r rest) (hc : c.isLower = false) : (trivia r).head? ≠ some c := by
  obtain ⟨mid, hname, _⟩ := scans_cons.mp h
  obtain ⟨⟨d, ds, htext, hd, _⟩, _⟩ := scans_singleton.mp hname
  rw [h.head?_trivia, Token.text, htext]
  rintro ⟨⟩
  simp [hc] at hd

/-- The characters with which subjects and expressions go on. -/
def joiners : List Char := ['#', '|', '+', '&', '-']

/-- The text goes on with nothing that belongs to a list of subjects or to an expression. -/
def Ends (r : List Char) : Prop := ∀ c ∈ (trivia r).head?, c ∉ joiners

/-- What begins with another character ends subjects and expressions. -/
theorem Scans.ends {t : Token} {ts : List Token} {r rest : List Char} {c : Char}
    (h : Scans (t :: ts) r rest) (ht : t.text.head? = some c)
    (hc : c ∉ joiners) : Ends r := by
  intro d hd
  rw [h.head?_trivia, ht] at hd
  cases hd
  exact hc

theorem Ends.head?_ne {r : List Char} (h : Ends r) {c : Char} (hc : c ∈ joiners) :
    (trivia r).head? ≠ some c :=
  fun hhead => h c hhead hc

/-- Reads another subject. -/
def barSubject : Parser Subject := do
  skip
  literal "|"
  skip
  subjectTypeRef

/-- The list of subjects with its repetition named. -/
theorem subjectTypeList_eq : subjectTypeList = rule .subjectTypeList do
    let first ← subjectTypeRef
    let rest ← many barSubject
    return first :: rest :=
  rfl

theorem barSubject_sound {r rest : List Char} {u : Subject}
    (h : barSubject.run r = some (u, rest)) :
    ∃ ts, ts = [.sign .bar] ++ u.tokens ∧ Scans ts r rest := by
  simp only [barSubject, run_bind, run_skip, Option.bind_some, Option.bind_eq_some_iff] at h
  obtain ⟨x, hbar, hu⟩ := h
  have hbar := (run_sign (s := .bar)).mp hbar
  exact ⟨_, rfl, scans_append.mpr ⟨_, hbar, subjectTypeRef_sound hu⟩⟩

theorem barSubject_complete {r rest : List Char} {u : Subject} {ts : List Token}
    (hts : ts = [.sign .bar] ++ u.tokens) (h : Scans ts r rest)
    (hnext : (trivia rest).head? ≠ some '#') : barSubject.run r = some (u, rest) := by
  subst hts
  obtain ⟨mid, hbar, hu⟩ := scans_append.mp h
  have hbar : (literal "|").run (trivia r) = some ((), mid) := (run_sign (s := .bar)).mpr hbar
  have hu := subjectTypeRef_complete hu hnext
  simp [barSubject, hbar, hu]

theorem barSubject_eq_none {r : List Char} (h : Ends r) : barSubject.run r = none := by
  have hbar : (literal "|").run (trivia r) = none := run_literal_eq_none rfl (h.head?_ne (by decide))
  simp [barSubject, hbar]

/-- Subjects are read off their tokens, divided by `|`, and there is one at least. -/
theorem subjectTypeList_sound {r rest : List Char} {us : List Subject}
    (h : subjectTypeList.run (trivia r) = some (us, rest)) :
    us ≠ [] ∧ Scans ([.sign .bar].intercalate (us.map Subject.tokens)) r rest := by
  simp only [subjectTypeList_eq, run_rule, run_bind, run_pure, Option.bind_eq_some_iff] at h
  obtain ⟨⟨u, mid⟩, hu, ⟨us, rest'⟩, hus, h⟩ := h
  cases h
  obtain ⟨ts, hts, hscans⟩ := many_sound barSubject_sound hus
  rw [each_eq_iff.mp hts] at hscans
  refine ⟨by simp, ?_⟩
  rw [intercalate_cons_eq_flatMap]
  exact scans_append.mpr ⟨mid, subjectTypeRef_sound hu, hscans⟩

/-- The tokens of subjects are read, up to where the list ends. -/
theorem subjectTypeList_complete {r rest : List Char} {us : List Subject} (hne : us ≠ [])
    (h : Scans ([.sign .bar].intercalate (us.map Subject.tokens)) r rest) (hends : Ends rest) :
    subjectTypeList.run (trivia r) = some (us, rest) := by
  obtain ⟨u, us, rfl⟩ := List.exists_cons_of_ne_nil hne
  rw [intercalate_cons_eq_flatMap] at h
  obtain ⟨mid, hu, hus⟩ := scans_append.mp h
  obtain ⟨hmore, hnext⟩ := many_complete (N := fun r => (trivia r).head? ≠ some '#')
    barSubject_complete
    (fun hts hscans => by
      subst hts
      rw [hscans.head?_trivia]
      decide)
    (fun hts => by simp [hts]) (each_eq_iff.mpr rfl) hus (hends.head?_ne (by decide))
    (barSubject_eq_none hends)
  have hfirst := subjectTypeRef_complete hu hnext
  simp [subjectTypeList_eq, hfirst, hmore]

/-- A relation is read off its tokens. -/
theorem relationDef_sound {r rest : List Char} {i : Item}
    (h : relationDef.run (trivia r) = some (i, rest)) :
    ∃ s : Relation, i = .relation s ∧ s.subjects ≠ [] ∧ Scans s.tokens r rest := by
  simp only [relationDef, run_rule, run_bind, run_skip, run_pure, Option.bind_eq_some_iff,
    Option.bind_some] at h
  obtain ⟨x, hkeyword, ⟨n, mid⟩, hname, y, hcolon, ⟨us, rest'⟩, hus, h⟩ := h
  cases h
  have hkeyword := (run_keyword (k := .relation)).mp hkeyword
  have hcolon := (run_sign (s := .colon)).mp hcolon
  rw [run_identifier] at hname
  obtain ⟨hne, hus⟩ := subjectTypeList_sound hus
  exact ⟨⟨n, us⟩, rfl, hne,
    scans_cons.mpr ⟨_, hkeyword, scans_cons.mpr ⟨_, hname, scans_cons.mpr ⟨_, hcolon, hus⟩⟩⟩⟩

/-- The tokens of a relation are read, up to where its list of subjects ends. -/
theorem relationDef_complete {r rest : List Char} {s : Relation} (hne : s.subjects ≠ [])
    (h : Scans s.tokens r rest) (hends : Ends rest) :
    relationDef.run (trivia r) = some (.relation s, rest) := by
  obtain ⟨mid, hkeyword, h⟩ := scans_cons.mp h
  obtain ⟨mid', hname, h⟩ := scans_cons.mp h
  obtain ⟨mid'', hcolon, hus⟩ := scans_cons.mp h
  have hkeyword : (literal "relation").run (trivia r) = some ((), mid) :=
    (run_keyword (k := .relation)).mpr hkeyword
  have hname := run_identifier.mpr hname
  have hcolon : (literal ":").run (trivia mid') = some ((), mid'') := (run_sign (s := .colon)).mpr hcolon
  have hus := subjectTypeList_complete hne hus hends
  simp [relationDef, hkeyword, hname, hcolon, hus]

/-! ## Expressions -/

/-- The sign of an operator. -/
def Operator.sign : Operator → Sign
  | .union => .plus
  | .intersection => .ampersand
  | .exclusion => .minus

mutual

/-- A name, an arrow, or an expression in parentheses. -/
inductive Tree.IsTerm : Tree → List Token → Prop where
  | name {n : String} : Tree.IsTerm (.name n) [.name n]
  | arrow {base target : String} :
      Tree.IsTerm (.arrow base target) [.name base, .sign .arrow, .name target]
  | parens {tree : Tree} {ts : List Token} : Tree.IsExpression tree ts →
      Tree.IsTerm tree (.sign .leftParen :: (ts ++ [.sign .rightParen]))

/-- A term, then operators each with a term. -/
inductive Tree.IsExpression : Tree → List Token → Prop where
  | terms {first : Tree} {rest : List (Operator × Tree)} {ts us : List Token} :
      Tree.IsTerm first ts → Tree.AreOperands rest us →
        Tree.IsExpression (first.ofTerms rest) (ts ++ us)

/-- Operators, each with a term. -/
inductive Tree.AreOperands : List (Operator × Tree) → List Token → Prop where
  | nil : Tree.AreOperands [] []
  | cons {op : Operator} {tree : Tree} {rest : List (Operator × Tree)} {ts us : List Token} :
      Tree.IsTerm tree ts → Tree.AreOperands rest us →
        Tree.AreOperands ((op, tree) :: rest) (.sign op.sign :: (ts ++ us))

end

/-- An operator with a term. -/
inductive Tree.IsOperand : Operator × Tree → List Token → Prop where
  | mk {op : Operator} {tree : Tree} {ts : List Token} : tree.IsTerm ts →
      Tree.IsOperand (op, tree) (.sign op.sign :: ts)

theorem Tree.IsTerm.ne_nil {tree : Tree} {ts : List Token} (h : tree.IsTerm ts) : ts ≠ [] := by
  cases h <;> simp

theorem Tree.IsOperand.ne_nil {x : Operator × Tree} {ts : List Token} (h : Tree.IsOperand x ts) :
    ts ≠ [] := by
  cases h
  simp

theorem areOperands_of_each {rest : List (Operator × Tree)} {us : List Token}
    (h : Each Tree.IsOperand rest us) : Tree.AreOperands rest us := by
  induction h with
  | nil => exact .nil
  | cons hop _ ih =>
      cases hop with
      | mk hterm => exact .cons hterm ih

/-- The tokens of each operand are some of those of all. -/
theorem Tree.AreOperands.each {n : Nat} : ∀ {rest : List (Operator × Tree)} {us : List Token},
    Tree.AreOperands rest us → us.length ≤ n →
      Each (fun x ts => Tree.IsOperand x ts ∧ ts.length ≤ n) rest us
  | _, _, .nil, _ => .nil
  | _, _, .cons hterm hrest, hn => by
      rw [← List.cons_append] at hn ⊢
      rw [List.length_append] at hn
      exact .cons ⟨.mk hterm, by omega⟩ (hrest.each (by omega))

/-! ### Operators -/

/-- An operator is read off its sign. -/
theorem operator_sound {r rest : List Char} {op : Operator}
    (h : operator.run (trivia r) = some (op, rest)) :
    ∃ mid, Scans [.sign op.sign] r mid ∧ trivia rest = trivia mid := by
  simp only [operator, run_orElse, run_rule, run_bind, run_skip, run_pure, Option.or_eq_some_iff,
    Option.bind_eq_some_iff, Option.bind_some] at h
  rcases h with ⟨x, hplus, h⟩ | ⟨_, ⟨x, hamp, h⟩ | ⟨_, x, hminus, y, hbefore, h⟩⟩
  · cases h
    exact ⟨_, (run_sign (s := .plus)).mp hplus, rfl⟩
  · cases h
    exact ⟨_, (run_sign (s := .ampersand)).mp hamp, rfl⟩
  · cases h
    rw [run_notBefore_eq_some hbefore]
    exact ⟨_, (run_sign (s := .minus)).mp hminus, trivia_trivia _⟩

/-- The sign of an operator is read, if it does not make an arrow with what follows. -/
theorem operator_complete {r mid : List Char} {op : Operator} (h : Scans [.sign op.sign] r mid)
    (hmid : (trivia mid).head? ≠ some '>') :
    ∃ rest, operator.run (trivia r) = some (op, rest) ∧ trivia rest = trivia mid := by
  have hhead := h.head?_trivia
  have hsign : (literal op.sign.text).run (trivia r) = some ((), mid) := run_sign.mpr h
  cases op with
  | union =>
      have hsign : (literal "+").run (trivia r) = some ((), mid) := hsign
      exact ⟨mid, by simp [operator, hsign], rfl⟩
  | intersection =>
      have hsign : (literal "&").run (trivia r) = some ((), mid) := hsign
      have hplus : (literal "+").run (trivia r) = none :=
        run_literal_eq_none rfl (by rw [hhead]; decide)
      exact ⟨mid, by simp [operator, hplus, hsign], rfl⟩
  | exclusion =>
      have hsign : (literal "-").run (trivia r) = some ((), mid) := hsign
      have hplus : (literal "+").run (trivia r) = none :=
        run_literal_eq_none rfl (by rw [hhead]; decide)
      have hamp : (literal "&").run (trivia r) = none :=
        run_literal_eq_none rfl (by rw [hhead]; decide)
      have hbefore := run_notBefore (run_literal_eq_none (s := ">") rfl hmid)
      exact ⟨trivia mid, by simp [operator, hplus, hamp, hsign, hbefore], trivia_trivia mid⟩

/-- No operator is read where an expression ends. -/
theorem operator_eq_none {r : List Char} (h : Ends r) : operator.run (trivia r) = none := by
  have hplus : (literal "+").run (trivia r) = none :=
    run_literal_eq_none rfl (h.head?_ne (by decide))
  have hamp : (literal "&").run (trivia r) = none :=
    run_literal_eq_none rfl (h.head?_ne (by decide))
  have hminus : (literal "-").run (trivia r) = none :=
    run_literal_eq_none rfl (h.head?_ne (by decide))
  simp [operator, hplus, hamp, hminus]

/-! ### Terms -/

/-- An arrow is read off its tokens. -/
theorem arrowExpr_sound {r rest : List Char} {tree : Tree}
    (h : arrowExpr.run (trivia r) = some (tree, rest)) : ∃ ts, tree.IsTerm ts ∧ Scans ts r rest := by
  simp only [arrowExpr, run_rule, run_bind, run_skip, run_pure, Option.bind_eq_some_iff,
    Option.bind_some] at h
  obtain ⟨⟨base, mid⟩, hbase, x, harrow, ⟨target, rest'⟩, htarget, h⟩ := h
  cases h
  have harrow := (run_sign (s := .arrow)).mp harrow
  rw [run_identifier] at hbase htarget
  exact ⟨_, .arrow, scans_cons.mpr ⟨_, hbase, scans_cons.mpr ⟨_, harrow, htarget⟩⟩⟩

/-- The text does not go on with an arrow. -/
def NoArrow (r : List Char) : Prop := (literal "->").run (trivia r) = none

theorem Ends.noArrow {r : List Char} (h : Ends r) : NoArrow r :=
  run_literal_eq_none rfl (h.head?_ne (by decide))

theorem Tree.IsTerm.head?_trivia_ne {tree : Tree} {ts : List Token} {r rest : List Char}
    (h : tree.IsTerm ts) (hscans : Scans ts r rest) : (trivia r).head? ≠ some '>' := by
  cases h with
  | name => exact hscans.head?_ne_of_not_isLower (by decide)
  | arrow => exact hscans.head?_ne_of_not_isLower (by decide)
  | parens =>
      rw [hscans.head?_trivia]
      decide

/-- An operand does not begin like an arrow: a minus is followed by a term, and no term begins
with `>`. -/
theorem Tree.IsOperand.noArrow {x : Operator × Tree} {ts : List Token} {r rest : List Char}
    (h : Tree.IsOperand x ts) (hscans : Scans ts r rest) : NoArrow r := by
  cases h with
  | @mk op tree ts hterm =>
      obtain ⟨mid, hsign, hscans⟩ := scans_cons.mp hscans
      rw [NoArrow, Option.eq_none_iff_forall_ne_some]
      intro x hx
      -- The arrow would begin with the operator, which is then `-`, and the term with `>`.
      obtain ⟨_, htext, _⟩ := scans_singleton.mp hsign
      rw [run_literal.mp hx] at htext
      cases op with
      | union => cases htext
      | intersection => cases htext
      | exclusion =>
          cases htext
          exact hterm.head?_trivia_ne hscans rfl

/-- A term is read off its tokens, if the expressions in its parentheses are. -/
theorem permissionTerm_sound {expr : Parser Tree} {r rest : List Char} {tree : Tree}
    (hexpr : ∀ {tree r rest}, expr.run (trivia r) = some (tree, rest) →
      ∃ ts, tree.IsExpression ts ∧ Scans ts r rest)
    (h : (permissionTerm expr).run (trivia r) = some (tree, rest)) :
    ∃ ts, tree.IsTerm ts ∧ Scans ts r rest := by
  simp only [permissionTerm, run_orElse, run_rule, run_bind, run_skip, run_pure,
    Option.or_eq_some_iff, Option.bind_eq_some_iff, Option.bind_some] at h
  rcases h with harrow | ⟨_, ⟨x, hleft, ⟨tree, mid⟩, htree, y, hright, h⟩ | ⟨_, ⟨n, mid⟩, hname, h⟩⟩
  · exact arrowExpr_sound harrow
  · cases h
    have hleft := (run_sign (s := .leftParen)).mp hleft
    have hright := (run_sign (s := .rightParen)).mp hright
    obtain ⟨ts, hts, hscans⟩ := hexpr htree
    exact ⟨_, .parens hts, scans_cons.mpr ⟨_, hleft, scans_append.mpr ⟨_, hscans, hright⟩⟩⟩
  · cases h
    exact ⟨_, .name, run_identifier.mp hname⟩

/-- The tokens of a term are read, if expressions of fewer tokens are.  What follows may not be an
arrow, since a name would be taken as its base. -/
theorem permissionTerm_complete {expr : Parser Tree} {n : Nat} {r rest : List Char} {tree : Tree}
    {ts : List Token}
    (hexpr : ∀ {tree ts r rest}, tree.IsExpression ts → ts.length ≤ n → Scans ts r rest →
      Ends rest → expr.run (trivia r) = some (tree, rest))
    (h : tree.IsTerm ts) (hn : ts.length ≤ n + 1) (hscans : Scans ts r rest) (hnext : NoArrow rest) :
    (permissionTerm expr).run (trivia r) = some (tree, rest) := by
  cases h with
  | @name m =>
      have hleft : (literal "(").run (trivia r) = none :=
        run_literal_eq_none rfl (hscans.head?_ne_of_not_isLower (by decide))
      have hname := run_identifier.mpr hscans
      have harrow : (literal "->").run (trivia rest) = none := hnext
      simp [permissionTerm, arrowExpr, hname, harrow, hleft]
  | arrow =>
      obtain ⟨mid, hbase, hscans⟩ := scans_cons.mp hscans
      obtain ⟨mid', harrow, htarget⟩ := scans_cons.mp hscans
      have hbase := run_identifier.mpr hbase
      have harrow : (literal "->").run (trivia mid) = some ((), mid') :=
        (run_sign (s := .arrow)).mpr harrow
      have htarget := run_identifier.mpr htarget
      simp [permissionTerm, arrowExpr, hbase, harrow, htarget]
  | parens htree =>
      simp only [List.length_cons, List.length_append] at hn
      obtain ⟨mid, hleft, hscans⟩ := scans_cons.mp hscans
      obtain ⟨mid', hscans, hright⟩ := scans_append.mp hscans
      have htree := hexpr htree (by omega) hscans (hright.ends (c := ')') rfl (by decide))
      have hname : identifier.run (trivia r) = none := by
        obtain ⟨_, htext, _⟩ := scans_singleton.mp hleft
        rw [htext]
        exact run_identifier_cons '(' mid
      have hleft : (literal "(").run (trivia r) = some ((), mid) :=
        (run_sign (s := .leftParen)).mpr hleft
      have hright : (literal ")").run (trivia mid') = some ((), rest) :=
        (run_sign (s := .rightParen)).mpr hright
      simp [permissionTerm, arrowExpr, hname, hleft, htree, hright]

/-! ### Chains -/

/-- Reads an operator and a term. -/
def operand (expr : Parser Tree) : Parser (Operator × Tree) := do
  skip
  let op ← operator
  skip
  return (op, ← permissionTerm expr)

/-- An expression is a term and then operands. -/
theorem permissionExpr_succ (depth : Nat) : permissionExpr (depth + 1) = rule .permissionExpr do
    let first ← permissionTerm (permissionExpr depth)
    let rest ← many (operand (permissionExpr depth))
    return first.ofTerms rest :=
  rfl

/-- An operand is read off its tokens. -/
theorem operand_sound {expr : Parser Tree}
    (hexpr : ∀ {tree r rest}, expr.run (trivia r) = some (tree, rest) →
      ∃ ts, tree.IsExpression ts ∧ Scans ts r rest)
    {r rest : List Char} {x : Operator × Tree} (h : (operand expr).run r = some (x, rest)) :
    ∃ ts, Tree.IsOperand x ts ∧ Scans ts r rest := by
  simp only [operand, run_bind, run_skip, run_pure, Option.bind_some, Option.bind_eq_some_iff] at h
  obtain ⟨⟨op, mid⟩, hop, ⟨tree, rest'⟩, htree, h⟩ := h
  cases h
  obtain ⟨mid', hscans, hmid⟩ := operator_sound hop
  rw [hmid] at htree
  obtain ⟨ts, hts, hrest⟩ := permissionTerm_sound hexpr htree
  exact ⟨_, .mk hts, scans_cons.mpr ⟨mid', hscans, hrest⟩⟩

/-- The tokens of an operand are read, if no arrow follows. -/
theorem operand_complete {expr : Parser Tree} {n : Nat}
    (hexpr : ∀ {tree ts r rest}, tree.IsExpression ts → ts.length ≤ n → Scans ts r rest →
      Ends rest → expr.run (trivia r) = some (tree, rest))
    {x : Operator × Tree} {ts : List Token} {r rest : List Char}
    (h : Tree.IsOperand x ts ∧ ts.length ≤ n + 1) (hscans : Scans ts r rest)
    (hnext : NoArrow rest) : (operand expr).run r = some (x, rest) := by
  obtain ⟨⟨hterm⟩, hn⟩ := h
  rw [List.length_cons] at hn
  obtain ⟨mid, hsign, hscans⟩ := scans_cons.mp hscans
  obtain ⟨mid', hop, hmid⟩ := operator_complete hsign (hterm.head?_trivia_ne hscans)
  have htree := permissionTerm_complete hexpr hterm (by omega) hscans hnext
  rw [← hmid] at htree
  simp [operand, hop, htree]

/-- An expression is read off its tokens, by induction on the depth that is left. -/
theorem permissionExpr_sound {depth : Nat} {r rest : List Char} {tree : Tree}
    (h : (permissionExpr depth).run (trivia r) = some (tree, rest)) :
    ∃ ts, tree.IsExpression ts ∧ Scans ts r rest := by
  induction depth generalizing tree r rest with
  | zero => cases h
  | succ depth ih =>
      simp only [permissionExpr_succ, run_rule, run_bind, run_pure, Option.bind_eq_some_iff] at h
      obtain ⟨⟨first, mid⟩, hfirst, ⟨operands, rest'⟩, hoperands, h⟩ := h
      cases h
      obtain ⟨ts, hts, hscans⟩ := permissionTerm_sound ih hfirst
      obtain ⟨us, hus, hrest⟩ := many_sound (operand_sound ih) hoperands
      exact ⟨ts ++ us, .terms hts (areOperands_of_each hus), scans_append.mpr ⟨mid, hscans, hrest⟩⟩

/-- Each level of parentheses takes a token, so the number of tokens is depth enough. -/
theorem permissionExpr_complete {depth : Nat} {r rest : List Char} {tree : Tree} {ts : List Token}
    (h : tree.IsExpression ts) (hdepth : ts.length ≤ depth) (hscans : Scans ts r rest)
    (hends : Ends rest) : (permissionExpr depth).run (trivia r) = some (tree, rest) := by
  induction depth generalizing tree ts r rest with
  | zero =>
      cases h with
      | terms hterm _ =>
          have := List.length_pos_iff.mpr hterm.ne_nil
          rw [List.length_append] at hdepth
          omega
  | succ depth ih =>
      cases h with
      | @terms first operands ts us hterm hoperands =>
          rw [List.length_append] at hdepth
          obtain ⟨mid, hfirst, hrest⟩ := scans_append.mp hscans
          have hus := hoperands.each (n := depth + 1) (by omega)
          obtain ⟨hmore, hnext⟩ := many_complete (operand_complete ih)
            (fun hx hscans => hx.1.noArrow hscans) (fun hx => hx.1.ne_nil) hus hrest hends.noArrow
            (by simp [operand, operator_eq_none hends])
          have hfirst := permissionTerm_complete ih hterm (by omega) hfirst hnext
          simp [permissionExpr_succ, hfirst, hmore]

/-! ## Definitions -/

/-- Every token takes a character. -/
theorem Scans.length_le_trivia {t : Token} {ts : List Token} {r rest : List Char}
    (h : Scans (t :: ts) r rest) : (t :: ts).length ≤ (trivia r).length := by
  cases h with
  | cons hvalid htext _ hrest =>
      have := hrest.length_le
      have := List.length_pos_iff.mpr hvalid.text_ne_nil
      rw [htext, List.length_append, List.length_cons]
      omega

/-- Reads an expression of any depth. -/
def expression : Parser Tree := fun text => permissionExpr (text.length + 1) text

theorem run_expression (text : List Char) :
    expression.run text = (permissionExpr (text.length + 1)).run text := by
  rw [run, expression, run]

/-- An expression of any depth is read off its tokens. -/
theorem expression_sound {r rest : List Char} {tree : Tree}
    (h : expression.run (trivia r) = some (tree, rest)) :
    ∃ ts, tree.IsExpression ts ∧ Scans ts r rest := by
  rw [run_expression] at h
  exact permissionExpr_sound h

/-- The tokens of an expression are read, since the length of the text is depth enough. -/
theorem expression_complete {r rest : List Char} {tree : Tree} {ts : List Token}
    (h : tree.IsExpression ts) (hscans : Scans ts r rest) (hends : Ends rest) :
    expression.run (trivia r) = some (tree, rest) := by
  have hlength : ts.length ≤ (trivia r).length + 1 := by
    cases ts with
    | nil => simp
    | cons t ts => exact Nat.le_succ_of_le hscans.length_le_trivia
  rw [run_expression]
  exact permissionExpr_complete h hlength hscans hends

theorem permissionDef_eq : permissionDef = rule .permissionDef do
    literal "permission"
    skip
    let name ← identifier
    skip
    literal "="
    skip
    let tree ← expression
    return .permission name tree :=
  rfl

/-- A permission is read off its tokens. -/
theorem permissionDef_sound {r rest : List Char} {i : Item}
    (h : permissionDef.run (trivia r) = some (i, rest)) :
    ∃ n tree ts, i = .permission n tree ∧ tree.IsExpression ts ∧
      Scans (.keyword .permission :: .name n :: .sign .equals :: ts) r rest := by
  simp only [permissionDef_eq, run_rule, run_bind, run_skip, run_pure, Option.bind_eq_some_iff,
    Option.bind_some] at h
  obtain ⟨x, hkeyword, ⟨n, mid⟩, hname, y, hequals, ⟨tree, rest'⟩, htree, h⟩ := h
  cases h
  have hkeyword := (run_keyword (k := .permission)).mp hkeyword
  have hequals := (run_sign (s := .equals)).mp hequals
  rw [run_identifier] at hname
  obtain ⟨ts, hts, hscans⟩ := expression_sound htree
  exact ⟨n, tree, ts, rfl, hts,
    scans_cons.mpr ⟨_, hkeyword, scans_cons.mpr ⟨_, hname, scans_cons.mpr ⟨_, hequals, hscans⟩⟩⟩⟩

/-- The tokens of a permission are read, up to where its expression ends. -/
theorem permissionDef_complete {r rest : List Char} {n : String} {tree : Tree} {ts : List Token}
    (htree : tree.IsExpression ts)
    (h : Scans (.keyword .permission :: .name n :: .sign .equals :: ts) r rest) (hends : Ends rest) :
    permissionDef.run (trivia r) = some (.permission n tree, rest) := by
  obtain ⟨mid, hkeyword, h⟩ := scans_cons.mp h
  obtain ⟨mid', hname, h⟩ := scans_cons.mp h
  obtain ⟨mid'', hequals, hts⟩ := scans_cons.mp h
  have hkeyword : (literal "permission").run (trivia r) = some ((), mid) :=
    (run_keyword (k := .permission)).mpr hkeyword
  have hname := run_identifier.mpr hname
  have hequals : (literal "=").run (trivia mid') = some ((), mid'') := (run_sign (s := .equals)).mpr hequals
  have htree := expression_complete htree hts hends
  simp [permissionDef_eq, hkeyword, hname, hequals, htree]

/-- The tokens of an item. -/
inductive Item.Written : Item → List Token → Prop where
  | relation {s : Relation} : s.subjects ≠ [] → Item.Written (.relation s) s.tokens
  | permission {n : String} {tree : Tree} {ts : List Token} : tree.IsExpression ts →
      Item.Written (.permission n tree) (.keyword .permission :: .name n :: .sign .equals :: ts)

/-- A relation or a permission is read off its tokens. -/
theorem item_sound {r rest : List Char} {i : Item}
    (h : (orElse relationDef permissionDef).run (trivia r) = some (i, rest)) :
    ∃ ts, i.Written ts ∧ Scans ts r rest := by
  rw [run_orElse, Option.or_eq_some_iff] at h
  rcases h with h | ⟨_, h⟩
  · obtain ⟨s, rfl, hne, hscans⟩ := relationDef_sound h
    exact ⟨_, .relation hne, hscans⟩
  · obtain ⟨n, tree, ts, rfl, hts, hscans⟩ := permissionDef_sound h
    exact ⟨_, .permission hts, hscans⟩

theorem relationDef_eq_none {r : List Char} (h : (trivia r).head? ≠ some 'r') :
    relationDef.run (trivia r) = none := by
  have hkeyword : (literal "relation").run (trivia r) = none := run_literal_eq_none rfl h
  simp [relationDef, hkeyword]

theorem permissionDef_eq_none {r : List Char} (h : (trivia r).head? ≠ some 'p') :
    permissionDef.run (trivia r) = none := by
  have hkeyword : (literal "permission").run (trivia r) = none := run_literal_eq_none rfl h
  simp [permissionDef, hkeyword]

/-- The tokens of an item are read, up to where it ends. -/
theorem item_complete {r rest : List Char} {i : Item} {ts : List Token} (h : i.Written ts)
    (hscans : Scans ts r rest) (hends : Ends rest) :
    (orElse relationDef permissionDef).run (trivia r) = some (i, rest) := by
  cases h with
  | relation hne => simp [relationDef_complete hne hscans hends]
  | permission htree =>
      have hrelation := relationDef_eq_none (r := r) (by rw [hscans.head?_trivia]; decide)
      simp [hrelation, permissionDef_complete htree hscans hends]

/-- An item ends what stands before it, as it begins with a keyword. -/
theorem Item.Written.ends {i : Item} {ts : List Token} {r rest : List Char} (h : i.Written ts)
    (hscans : Scans ts r rest) : Ends r := by
  cases h with
  | relation _ => exact Scans.ends (c := 'r') hscans rfl (by decide)
  | permission _ => exact hscans.ends (c := 'p') rfl (by decide)

section Spaced

variable {α : Type} {p : Parser α} {W : α → List Token → Prop} {as : List α} {r rest : List Char}

/-- What a repetition with trivia between its values reads is written in turn.  Trivia after the
last value are taken too. -/
theorem manySpaced_sound
    (hp : ∀ {r a rest}, p.run (trivia r) = some (a, rest) → ∃ ts, W a ts ∧ Scans ts r rest)
    (h : (manySpaced p).run (trivia r) = some (as, rest)) :
    ∃ ts mid, Each W as ts ∧ Scans ts r mid ∧ trivia rest = trivia mid := by
  simp only [manySpaced, run_orElse, run_bind, run_pure, run_succeed, Option.or_eq_some_iff,
    Option.bind_eq_some_iff] at h
  rcases h with ⟨⟨a, mid⟩, hfirst, ⟨as, rest'⟩, hrest, h⟩ | ⟨_, h⟩
  · cases h
    obtain ⟨ts, hts, hscans⟩ := hp hfirst
    have hmore := many_sound (W := W) (fun {r a rest} h => by
      rw [run_bind, run_skip, Option.bind_some] at h
      exact hp h) hrest
    obtain ⟨us, hus, hrest⟩ := hmore
    exact ⟨ts ++ us, _, .cons hts hus, scans_append.mpr ⟨mid, hscans, hrest⟩, rfl⟩
  · cases h
    exact ⟨[], r, .nil, .nil, trivia_trivia r⟩

/-- Values written in turn are read with the trivia between them. -/
theorem manySpaced_complete {N : List Char → Prop} {ts : List Token}
    (hp : ∀ {a ts r rest}, W a ts → Scans ts r rest → N rest → p.run (trivia r) = some (a, rest))
    (hnext : ∀ {a ts r rest}, W a ts → Scans ts r rest → N r) (hW : ∀ {a ts}, W a ts → ts ≠ [])
    (h : Each W as ts) (hscans : Scans ts r rest) (hrest : N rest)
    (hstop : p.run (trivia rest) = none) :
    ∃ rest', (manySpaced p).run (trivia r) = some (as, rest') ∧ trivia rest' = trivia rest := by
  cases h with
  | nil =>
      cases hscans
      exact ⟨trivia r, by simp [manySpaced, hstop], trivia_trivia r⟩
  | cons hts hus =>
      obtain ⟨mid, hfirst, hscans⟩ := scans_append.mp hscans
      obtain ⟨hmore, hmid⟩ := many_complete (N := N) (p := do skip; p)
        (fun hts hscans hrest => by
          rw [run_bind, run_skip, Option.bind_some]
          exact hp hts hscans hrest)
        hnext hW hus hscans hrest (by simp [hstop])
      exact ⟨rest, by simp [manySpaced, hp hts hfirst hmid, hmore], rfl⟩

end Spaced

/-- The tokens of a type. -/
inductive Definition.Written : Definition → List Token → Prop where
  | mk {n : String} {items : List Item} {ts : List Token} : Each Item.Written items ts →
      Definition.Written ⟨n, items⟩
        (.keyword .definition :: .name n :: .sign .leftBrace :: (ts ++ [.sign .rightBrace]))

/-- A type is read off its tokens. -/
theorem definition_sound {r rest : List Char} {d : Definition}
    (h : definition.run (trivia r) = some (d, rest)) : ∃ ts, d.Written ts ∧ Scans ts r rest := by
  simp only [definition, definitionBody, run_rule, run_bind, run_skip, run_pure,
    Option.bind_eq_some_iff, Option.bind_some] at h
  obtain ⟨x, hkeyword, ⟨n, mid⟩, hname, ⟨items', rest'⟩,
    ⟨y, hleft, ⟨items, mid'⟩, hitems, z, hright, h⟩, h'⟩ := h
  cases h
  cases h'
  have hkeyword := (run_keyword (k := .definition)).mp hkeyword
  have hleft := (run_sign (s := .leftBrace)).mp hleft
  rw [run_identifier] at hname
  obtain ⟨ts, mid'', hts, hscans, hmid⟩ := manySpaced_sound item_sound hitems
  rw [hmid] at hright
  have hright := (run_sign (s := .rightBrace)).mp hright
  exact ⟨_, .mk hts, scans_cons.mpr ⟨_, hkeyword, scans_cons.mpr ⟨_, hname,
    scans_cons.mpr ⟨_, hleft, scans_append.mpr ⟨_, hscans, hright⟩⟩⟩⟩⟩

/-- The tokens of a type are read, whatever follows, since it ends with a brace. -/
theorem definition_complete {r rest : List Char} {d : Definition} {ts : List Token}
    (h : d.Written ts) (hscans : Scans ts r rest) : definition.run (trivia r) = some (d, rest) := by
  cases h with
  | mk hitems =>
      obtain ⟨mid, hkeyword, hscans⟩ := scans_cons.mp hscans
      obtain ⟨mid', hname, hscans⟩ := scans_cons.mp hscans
      obtain ⟨mid'', hleft, hscans⟩ := scans_cons.mp hscans
      obtain ⟨last, hscans, hright⟩ := scans_append.mp hscans
      have hhead := hright.head?_trivia
      have hends : Ends last := hright.ends rfl (show '\x7d' ∉ joiners by decide)
      have hrelation := relationDef_eq_none (r := last) (by rw [hhead]; decide)
      have hpermission := permissionDef_eq_none (r := last) (by rw [hhead]; decide)
      obtain ⟨last', hitems, hlast⟩ := manySpaced_complete (N := Ends) item_complete
        Item.Written.ends (fun h => by cases h <;> simp [Relation.tokens]) hitems hscans hends
        (by simp [hrelation, hpermission])
      have hkeyword : (literal "definition").run (trivia r) = some ((), mid) :=
        (run_keyword (k := .definition)).mpr hkeyword
      have hname := run_identifier.mpr hname
      have hleft : (literal "\x7b").run (trivia mid') = some ((), mid'') :=
        (run_sign (s := .leftBrace)).mpr hleft
      have hright : (literal "\x7d").run (trivia last') = some ((), rest) := by
        rw [hlast]
        exact (run_sign (s := .rightBrace)).mpr hright
      simp [definition, definitionBody, hkeyword, hname, hleft, hitems, hright]

/-- A text is read as a list of types if and only if its tokens are theirs. -/
theorem exists_run_schemaText_iff {text : List Char} {ds : List Definition} :
    (∃ rest, schemaText.run text = some (ds, rest)) ↔
      ∃ ts mid, Each Definition.Written ds ts ∧ Scans ts text mid ∧ trivia mid = [] := by
  constructor
  · rintro ⟨rest, h⟩
    simp only [schemaText, run_rule, run_bind, run_skip, run_pure, Option.bind_eq_some_iff,
      Option.bind_some] at h
    obtain ⟨⟨ds, mid⟩, hds, x, hend, h⟩ := h
    cases h
    obtain ⟨ts, mid', hts, hscans, hmid⟩ := manySpaced_sound definition_sound hds
    refine ⟨ts, mid', hts, hscans, ?_⟩
    rw [← hmid]
    cases hnil : trivia mid with
    | nil => rfl
    | cons c text =>
        rw [hnil] at hend
        cases hend
  · rintro ⟨ts, mid, hts, hscans, hmid⟩
    have hstop : definition.run (trivia mid) = none := by
      rw [hmid]
      rfl
    obtain ⟨rest, hds, hrest⟩ := manySpaced_complete (N := fun _ => True)
      (fun h hscans _ => definition_complete h hscans) (fun _ _ => trivial)
      (fun h => by cases h; simp) hts hscans trivial hstop
    have hend : endOfInput.run [] = some ((), []) := rfl
    exact ⟨[], by simp [schemaText, hds, hrest, hmid, hend]⟩

end Rebac.Language
