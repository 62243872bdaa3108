import Rebac.Proofs.Emission
import Rebac.Proofs.WireSchemas
import Rebac.Rule.Sql

/-!
# Reading rule bases back from SQL

A reader of SQL takes a text apart into words, string literals and marks, and skips white space
between them.  A literal ends at the first quote that is not written twice.  Of statements it knows
those that insert rows of literals into a table.

Whatever a name holds, its literal is read as that name and nothing after it is touched
(`lexes_literal`).  So the text of a rule base has the tokens that its tables say, and these are
read as the tables (`read_sql`).  All that is lost is whether a missing subject relation was given
as the empty string, and no schema that is read from a text gives one like that
(`Schema.Readable.subjectRelation_ne`).
-/

namespace Rebac.Sql

/-! ## The reader -/

/-- A piece of SQL. -/
inductive Token where
  /-- A keyword or the name of a table. -/
  | word (w : String)
  /-- A string literal, by what it stands for. -/
  | literal (s : String)
  /-- A parenthesis, comma or semicolon, or any other sign. -/
  | mark (c : Char)
  deriving Repr, DecidableEq

/-- White space, which separates tokens and is no token itself. -/
def isBlank (c : Char) : Bool := c = ' ' ∨ c = '\t' ∨ c = '\n' ∨ c = '\r'

/-- A character of a keyword or of the name of a table. -/
def isWordPart (c : Char) : Bool := c.isAlphanum ∨ c = '_'

/-- Reads the characters of a literal up to its closing quote.  A quote that is written twice
stands for one. -/
def unquote : List Char → Option (List Char × List Char)
  | [] => none
  | '\x27' :: '\x27' :: rest => (unquote rest).map fun (s, rest) => ('\x27' :: s, rest)
  | '\x27' :: rest => some ([], rest)
  | c :: rest => (unquote rest).map fun (s, rest) => (c :: s, rest)

theorem length_unquote_lt {text s rest : List Char} (h : unquote text = some (s, rest)) :
    rest.length < text.length := by
  fun_induction unquote text generalizing s with
  | case1 => cases h
  | case2 text ih =>
      obtain ⟨⟨s', rest'⟩, h', heq⟩ := Option.map_eq_some_iff.mp h
      cases heq
      have := ih h'
      simp only [List.length_cons]
      omega
  | case3 text hnext =>
      cases h
      simp
  | case4 c text _ _ ih =>
      obtain ⟨⟨s', rest'⟩, h', heq⟩ := Option.map_eq_some_iff.mp h
      cases heq
      have := ih h'
      simp only [List.length_cons]
      omega

/-- Takes a text apart. -/
def tokens (text : List Char) : Option (List Token) :=
  match text with
  | [] => some []
  | c :: rest =>
      if c = '\x27' then
        match _h : unquote rest with
        | none => none
        | some (s, rest) => (tokens rest).map (.literal (String.ofList s) :: ·)
      else if isBlank c then tokens rest
      else if isWordPart c then
        (tokens (rest.dropWhile isWordPart)).map
          (.word (String.ofList (c :: rest.takeWhile isWordPart)) :: ·)
      else (tokens rest).map (.mark c :: ·)
termination_by text.length
decreasing_by
  · have := length_unquote_lt _h
    simp only [List.length_cons]
    omega
  · simp
  · have := (List.dropWhile_suffix isWordPart (l := rest)).length_le
    simp only [List.length_cons]
    omega
  · simp

/-- Reads the values of a row after its opening parenthesis. -/
def values : List Token → Option (List String × List Token)
  | .literal s :: .mark ')' :: rest => some ([s], rest)
  | .literal s :: .mark ',' :: rest => (values rest).map fun (vs, rest) => (s :: vs, rest)
  | _ => none

theorem length_values_lt {ts rest : List Token} {vs : List String}
    (h : values ts = some (vs, rest)) : rest.length < ts.length := by
  fun_induction values ts generalizing vs with
  | case1 s ts =>
      cases h
      simp only [List.length_cons]
      omega
  | case2 s ts ih =>
      obtain ⟨⟨vs', rest'⟩, h', heq⟩ := Option.map_eq_some_iff.mp h
      cases heq
      have := ih h'
      simp only [List.length_cons]
      omega
  | case3 => cases h

/-- Reads the rows of a statement and its semicolon. -/
def rows (ts : List Token) : Option (List (List String) × List Token) :=
  match ts with
  | .mark '(' :: ts =>
      match _h : values ts with
      | some (vs, .mark ';' :: rest) => some ([vs], rest)
      | some (vs, .mark ',' :: rest) => (rows rest).map fun (rs, rest) => (vs :: rs, rest)
      | _ => none
  | _ => none
termination_by ts.length
decreasing_by
  have := length_values_lt _h
  simp only [List.length_cons] at this ⊢
  omega

theorem length_rows_lt {ts rest : List Token} {rs : List (List String)}
    (h : rows ts = some (rs, rest)) : rest.length < ts.length := by
  fun_induction rows ts generalizing rs with
  | case1 ts vs ts' hvalues =>
      cases h
      have := length_values_lt hvalues
      simp only [List.length_cons] at this ⊢
      omega
  | case2 ts vs ts' hvalues ih =>
      obtain ⟨⟨rs', rest'⟩, h', heq⟩ := Option.map_eq_some_iff.mp h
      cases heq
      have := ih h'
      have := length_values_lt hvalues
      simp only [List.length_cons] at this ⊢
      omega
  | case3 => cases h
  | case4 => cases h

/-- A statement that inserts rows into a table. -/
structure Insert where
  table : String
  rows : List (List String)
  deriving Repr, DecidableEq

/-- Reads statements one after the other. -/
def inserts (ts : List Token) : Option (List Insert) :=
  match ts with
  | [] => some []
  | .word "INSERT" :: .word "INTO" :: .word table :: .word "VALUES" :: ts =>
      match _h : rows ts with
      | none => none
      | some (rs, rest) => (inserts rest).map (⟨table, rs⟩ :: ·)
  | _ => none
termination_by ts.length
decreasing_by
  have := length_rows_lt _h
  simp only [List.length_cons]
  omega

/-- Reads a text of statements. -/
def read (text : String) : Option (List Insert) := (tokens text.toList).bind inserts

/-- The rows that statements insert into a table, in order. -/
def rowsInto (table : String) (statements : List Insert) : List (List String) :=
  (statements.filter (·.table = table)).flatMap Insert.rows

/-! ## Texts and their tokens -/

/-- The piece of text has these tokens where `rest` follows. -/
def Lexes (piece : List Char) (ts : List Token) (rest : List Char) : Prop :=
  tokens (piece ++ rest) = (tokens rest).map (ts ++ ·)

/-- Pieces of text that follow one another have their tokens in a row. -/
theorem Lexes.append {a b rest : List Char} {ts us : List Token} (h : Lexes a ts (b ++ rest))
    (h' : Lexes b us rest) : Lexes (a ++ b) (ts ++ us) rest := by
  rw [Lexes, List.append_assoc, h, h', Option.map_map]
  simp only [Function.comp_def, List.append_assoc]

theorem lexes_nil (rest : List Char) : Lexes [] [] rest := by simp [Lexes]

theorem lexes_blank {c : Char} (hc : isBlank c = true) (rest : List Char) : Lexes [c] [] rest := by
  have hquote : c ≠ '\x27' := by
    rintro rfl
    simp [isBlank] at hc
  simp [Lexes, tokens, hquote, hc]

theorem lexes_mark {c : Char} (hquote : c ≠ '\x27') (hblank : isBlank c = false)
    (hword : isWordPart c = false) (rest : List Char) : Lexes [c] [.mark c] rest := by
  simp [Lexes, tokens, hquote, hblank, hword]

/-- A word begins with neither a quote nor white space. -/
theorem not_quote_or_blank_of_isWordPart {c : Char} (h : isWordPart c = true) :
    c ≠ '\x27' ∧ isBlank c = false := by
  constructor
  · rintro rfl
    exact absurd h (by decide)
  · rw [Bool.eq_false_iff]
    intro hblank
    simp only [isBlank, decide_eq_true_eq] at hblank
    rcases hblank with rfl | rfl | rfl | rfl <;> exact absurd h (by decide)

/-- A keyword, or the name of a table. -/
def IsWord (w : String) : Prop := w.toList ≠ [] ∧ w.toList.all isWordPart = true

/-- A word ends where the characters of words end. -/
theorem lexes_word {w : String} (hw : IsWord w) {rest : List Char}
    (hrest : ∀ d ∈ rest.head?, isWordPart d = false) : Lexes w.toList [.word w] rest := by
  obtain ⟨hne, hall⟩ := hw
  obtain ⟨c, cs, hcs⟩ := List.exists_cons_of_ne_nil hne
  rw [hcs, List.all_cons, Bool.and_eq_true, List.all_eq_true] at hall
  obtain ⟨hc, htail⟩ := hall
  obtain ⟨hquote, hblank⟩ := not_quote_or_blank_of_isWordPart hc
  have htake : (cs ++ rest).takeWhile isWordPart = cs := by
    rw [List.takeWhile_append_of_pos htail]
    cases rest with
    | nil => simp
    | cons d rest => simp [hrest d rfl]
  have hdrop : (cs ++ rest).dropWhile isWordPart = rest := by
    rw [List.dropWhile_append_of_pos htail]
    cases rest with
    | nil => rfl
    | cons d rest => simp [hrest d rfl]
  have hword : String.ofList (c :: cs) = w := by rw [← hcs, String.ofList_toList]
  rw [Lexes, hcs, List.cons_append, tokens, if_neg hquote, if_neg (by simp [hblank]), if_pos hc,
    htake, hdrop, hword]
  rfl

/-- A text goes on without a quote. -/
def NoQuote (rest : List Char) : Prop := rest.head? ≠ some '\x27'

/-- Whatever a literal holds, it ends at its closing quote. -/
theorem unquote_literal (s : List Char) {rest : List Char} (hrest : NoQuote rest) :
    unquote (s.flatMap (fun c => if c = '\x27' then ['\x27', '\x27'] else [c]) ++
      '\x27' :: rest) = some (s, rest) := by
  induction s with
  | nil =>
      cases rest with
      | nil => rfl
      | cons c rest =>
          have hc : c ≠ '\x27' := by simpa [NoQuote] using hrest
          simp [unquote, hc]
  | cons c s ih =>
      by_cases hc : c = '\x27'
      · simp [hc, unquote, ih]
      · simp [hc, unquote, ih]

/-- A literal is one token, if no quote follows it. -/
theorem lexes_literal (s : String) {rest : List Char} (hrest : NoQuote rest) :
    Lexes (literal s) [.literal s] rest := by
  simp only [Lexes, literal, List.cons_append, List.append_assoc, List.nil_append]
  rw [tokens, if_pos rfl, unquote_literal s.toList hrest]
  simp

/-- Pieces that follow one another, none of which begins with a quote. -/
theorem lexes_flatMap {α : Type} {piece : α → List Char} {ts : α → List Token} {xs : List α}
    (hpiece : ∀ x ∈ xs, ∀ rest, NoQuote rest → Lexes (piece x) (ts x) rest)
    (hstart : ∀ x ∈ xs, ∀ rest, NoQuote (piece x ++ rest)) {rest : List Char}
    (hrest : NoQuote rest) : Lexes (xs.flatMap piece) (xs.flatMap ts) rest := by
  induction xs with
  | nil => exact lexes_nil rest
  | cons x xs ih =>
      have htail := ih (fun y hy => hpiece y (List.mem_cons_of_mem x hy))
        fun y hy => hstart y (List.mem_cons_of_mem x hy)
      rw [List.flatMap_cons, List.flatMap_cons]
      refine (hpiece x List.mem_cons_self _ ?_).append htail
      cases xs with
      | nil => exact hrest
      | cons y ys =>
          rw [List.flatMap_cons, List.append_assoc]
          exact hstart y (List.mem_cons_of_mem x List.mem_cons_self) _

theorem lexes_comma_blank {c : Char} (hc : isBlank c = true) (rest : List Char) :
    Lexes [',', c] [.mark ','] rest :=
  (lexes_mark (by decide) (by decide) (by decide) _).append (lexes_blank hc rest)

/-! ### Rows and statements -/

/-- The tokens of the values of a row. -/
def valueTokens : List String → List Token
  | [] => []
  | v :: vs => .literal v :: vs.flatMap fun v => [.mark ',', .literal v]

/-- The tokens of a row in its parentheses. -/
def rowTokens (vs : List String) : List Token := .mark '(' :: (valueTokens vs ++ [.mark ')'])

/-- A row is its values between parentheses, whatever follows. -/
theorem lexes_row (vs : List String) (rest : List Char) : Lexes (row vs) (rowTokens vs) rest := by
  have hopen := lexes_mark (c := '(') (by decide) (by decide) (by decide)
  have hclose := lexes_mark (c := ')') (by decide) (by decide) (by decide) rest
  refine (hopen _).append (Lexes.append ?_ hclose)
  have hend : NoQuote (')' :: rest) := by simp [NoQuote]
  cases vs with
  | nil => exact lexes_nil _
  | cons v vs =>
      rw [Language.intercalate_cons_eq_flatMap]
      have hvalues : Lexes (vs.flatMap fun v => ", ".toList ++ literal v)
          (vs.flatMap fun v => [.mark ',', .literal v]) (')' :: rest) := by
        refine lexes_flatMap (fun v _ rest hrest => ?_) (fun v _ rest => ?_) hend
        · exact (lexes_comma_blank rfl _).append (lexes_literal v hrest)
        · simp [NoQuote]
      refine (lexes_literal v ?_).append hvalues
      cases vs <;> simp [NoQuote]

/-- The tokens of rows and of the semicolon after them. -/
def rowsTokens : List (List String) → List Token
  | [] => [.mark ';']
  | r :: rs => rowTokens r ++ (rs.flatMap fun r => .mark ',' :: rowTokens r) ++ [.mark ';']

/-- Rows are divided by commas and end with a semicolon. -/
theorem lexes_rows (rs : List (List String)) (rest : List Char) :
    Lexes (List.intercalate ",\n".toList (rs.map row) ++ [';']) (rowsTokens rs) rest := by
  have hsemi := lexes_mark (c := ';') (by decide) (by decide) (by decide) rest
  cases rs with
  | nil => exact (lexes_nil _).append hsemi
  | cons r rs =>
      rw [Language.intercalate_cons_eq_flatMap]
      refine ((lexes_row r _).append ?_).append hsemi
      refine lexes_flatMap (fun r _ rest _ => ?_) (fun r _ rest => ?_) (by simp [NoQuote])
      · exact (lexes_comma_blank rfl _).append (lexes_row r rest)
      · simp [NoQuote]

/-- The tokens of a statement. -/
def Insert.tokens (i : Insert) : List Token :=
  .word "INSERT" :: .word "INTO" :: .word i.table :: .word "VALUES" :: rowsTokens i.rows

/-- The text of a statement. -/
def Insert.text (i : Insert) : List Char :=
  "INSERT INTO ".toList ++ i.table.toList ++ " VALUES\n".toList ++
    (List.intercalate ",\n".toList (i.rows.map row) ++ [';'])

/-- A statement has the tokens of its table and its rows. -/
theorem lexes_insert {i : Insert} (hi : IsWord i.table) (rest : List Char) :
    Lexes i.text i.tokens rest := by
  have hblank : ∀ {c : Char} {rest : List Char}, isBlank c = true →
      ∀ d ∈ (c :: rest).head?, isWordPart d = false := by
    intro c rest hc d hd
    cases hd
    rw [Bool.eq_false_iff]
    intro hd
    rw [(not_quote_or_blank_of_isWordPart hd).2] at hc
    cases hc
  have hthen : ∀ {w : String} {c : Char} (rest : List Char), IsWord w → isBlank c = true →
      Lexes (w.toList ++ [c]) [.word w] rest := fun rest hw hc =>
    (lexes_word hw (hblank hc)).append (lexes_blank hc rest)
  have hinsert : IsWord "INSERT" := ⟨by decide, by decide⟩
  have hinto : IsWord "INTO" := ⟨by decide, by decide⟩
  have hvalues : IsWord "VALUES" := ⟨by decide, by decide⟩
  have hspace : isBlank ' ' = true := rfl
  have hline : isBlank '\n' = true := rfl
  have htext : i.text = ("INSERT".toList ++ [' ']) ++ (("INTO".toList ++ [' ']) ++
      ((i.table.toList ++ [' ']) ++ (("VALUES".toList ++ ['\n']) ++
        (List.intercalate ",\n".toList (i.rows.map row) ++ [';'])))) := by
    have hwords : "INSERT INTO ".toList = "INSERT".toList ++ ([' '] ++ ("INTO".toList ++ [' '])) :=
      rfl
    have hline : " VALUES\n".toList = [' '] ++ ("VALUES".toList ++ ['\n']) := rfl
    unfold Insert.text
    rw [hwords, hline]
    simp only [List.append_assoc]
  rw [htext]
  exact (hthen _ hinsert hspace).append ((hthen _ hinto hspace).append
    ((hthen _ hi hspace).append ((hthen _ hvalues hline).append (lexes_rows i.rows rest))))

/-! ### Reading tokens -/

/-- The values of a row are read up to its closing parenthesis. -/
theorem values_append {vs : List String} (hvs : vs ≠ []) (rest : List Token) :
    values (valueTokens vs ++ .mark ')' :: rest) = some (vs, rest) := by
  obtain ⟨v, vs, rfl⟩ := List.exists_cons_of_ne_nil hvs
  clear hvs
  induction vs generalizing v with
  | nil => rfl
  | cons w vs ih =>
      have h := ih w
      simp only [valueTokens, List.flatMap_cons, List.cons_append, List.nil_append] at h ⊢
      rw [values, h]
      rfl

/-- The rows of a statement are read up to its semicolon. -/
theorem rows_append {rs : List (List String)} (hrs : rs ≠ []) (hvalues : ∀ r ∈ rs, r ≠ [])
    (rest : List Token) : rows (rowsTokens rs ++ rest) = some (rs, rest) := by
  obtain ⟨r, rs, rfl⟩ := List.exists_cons_of_ne_nil hrs
  clear hrs
  induction rs generalizing r with
  | nil =>
      have h := values_append (hvalues r List.mem_cons_self) (.mark ';' :: rest)
      simp only [rowsTokens, rowTokens, List.flatMap_nil, List.append_nil, List.cons_append,
        List.append_assoc, List.nil_append]
      rw [rows, h]
      rfl
  | cons q rs ih =>
      have htail := ih q fun x hx => hvalues x (List.mem_cons_of_mem r hx)
      have h := values_append (hvalues r List.mem_cons_self)
        (.mark ',' :: (rowsTokens (q :: rs) ++ rest))
      simp only [rowsTokens, rowTokens, List.flatMap_cons, List.cons_append, List.append_assoc,
        List.nil_append] at h htail ⊢
      rw [rows, h]
      simp [htail]

/-- Statements in a row are read one by one. -/
theorem inserts_flatMap {is : List Insert} (hrows : ∀ i ∈ is, i.rows ≠ [] ∧ ∀ r ∈ i.rows, r ≠ []) :
    inserts (is.flatMap Insert.tokens) = some is := by
  induction is with
  | nil => simp [inserts]
  | cons i is ih =>
      obtain ⟨hne, hvalues⟩ := hrows i List.mem_cons_self
      have htail := ih fun j hj => hrows j (List.mem_cons_of_mem i hj)
      have h := rows_append hne hvalues (is.flatMap Insert.tokens)
      rw [List.flatMap_cons, Insert.tokens]
      simp only [List.cons_append]
      rw [inserts, h]
      simp [htail]

/-- Reading the statements of a text gives them back. -/
theorem read_statements {is : List Insert} (hwords : ∀ i ∈ is, IsWord i.table)
    (hrows : ∀ i ∈ is, i.rows ≠ [] ∧ ∀ r ∈ i.rows, r ≠ []) :
    read (String.ofList (List.intercalate "\n\n".toList (is.map Insert.text))) = some is := by
  have hlexes : Lexes (List.intercalate "\n\n".toList (is.map Insert.text))
      (is.flatMap Insert.tokens) [] := by
    cases is with
    | nil => exact lexes_nil _
    | cons i is =>
        rw [Language.intercalate_cons_eq_flatMap, List.flatMap_cons]
        refine (lexes_insert (hwords i List.mem_cons_self) _).append ?_
        refine lexes_flatMap (fun j hj rest _ => ?_) (fun j _ rest => ?_) (by simp [NoQuote])
        · have hline : isBlank '\n' = true := rfl
          exact ((lexes_blank hline _).append (lexes_blank hline _)).append
            (lexes_insert (hwords j (List.mem_cons_of_mem i hj)) rest)
        · simp [NoQuote]
  rw [Lexes, List.append_nil] at hlexes
  rw [read, String.toList_ofList, hlexes]
  simpa [tokens] using inserts_flatMap hrows

end Rebac.Sql

namespace Rebac

/-! ## Rule bases -/

/-- The tables of a rule base that have rows. -/
def RuleBase.inserts (b : RuleBase) : List Sql.Insert :=
  [⟨"type_restrictions", b.restrictions.map Restriction.values⟩,
    ⟨"unary_rules", b.unary.map UnaryRule.values⟩,
    ⟨"binary_rules", b.binary.map BinaryRule.values⟩].filter fun i => i.rows ≠ []

/-- A table without rows has no statement. -/
theorem Sql.insert?_eq (table : String) (rs : List (List String)) :
    Sql.insert? table rs = if rs = [] then none else some (Sql.Insert.text ⟨table, rs⟩) := by
  cases rs with
  | nil => rfl
  | cons r rs =>
      rw [if_neg (List.cons_ne_nil r rs)]
      unfold Sql.insert? Sql.Insert.text
      simp only [List.append_assoc]

/-- The statements of a rule base are those of its tables that have rows. -/
theorem RuleBase.statements_eq (b : RuleBase) : b.statements = b.inserts.map Sql.Insert.text := by
  rw [RuleBase.statements, RuleBase.inserts]
  simp only [Sql.insert?_eq, List.filter_cons, List.filterMap_cons, List.filter_nil,
    List.filterMap_nil]
  grind

/-- The text of a rule base is read as its tables. -/
theorem RuleBase.read_sql (b : RuleBase) : Sql.read b.sql = some b.inserts := by
  rw [RuleBase.sql, RuleBase.statements_eq]
  apply Sql.read_statements
  · intro i hi
    have hi := (List.mem_filter.mp hi).1
    simp only [List.mem_cons, List.not_mem_nil, or_false] at hi
    rcases hi with rfl | rfl | rfl
    · exact (⟨by decide, by decide⟩ : Sql.IsWord "type_restrictions")
    · exact (⟨by decide, by decide⟩ : Sql.IsWord "unary_rules")
    · exact (⟨by decide, by decide⟩ : Sql.IsWord "binary_rules")
  · intro i hi
    obtain ⟨hi, hne⟩ := List.mem_filter.mp hi
    refine ⟨by simpa using hne, fun r hr => ?_⟩
    simp only [List.mem_cons, List.not_mem_nil, or_false] at hi
    rcases hi with rfl | rfl | rfl
    all_goals
      obtain ⟨x, _, rfl⟩ := List.mem_map.mp hr
      exact List.cons_ne_nil _ _

/-- Leaving out empty tables loses no rows. -/
theorem Sql.rowsInto_filter (table : String) (is : List Sql.Insert) :
    Sql.rowsInto table (is.filter fun i => i.rows ≠ []) = Sql.rowsInto table is := by
  induction is with
  | nil => rfl
  | cons i is ih =>
      by_cases hrows : i.rows = [] <;> by_cases htable : i.table = table <;>
        simpa [Sql.rowsInto, hrows, htable] using ih

/-- The rows of the three tables. -/
theorem RuleBase.rowsInto_inserts (b : RuleBase) :
    Sql.rowsInto "type_restrictions" b.inserts = b.restrictions.map Restriction.values ∧
      Sql.rowsInto "unary_rules" b.inserts = b.unary.map UnaryRule.values ∧
      Sql.rowsInto "binary_rules" b.inserts = b.binary.map BinaryRule.values := by
  simp only [RuleBase.inserts, Sql.rowsInto_filter]
  refine ⟨?_, ?_, ?_⟩ <;> simp [Sql.rowsInto]

/-- The rows say the same, where a missing subject relation and an empty one are one. -/
structure Restriction.Matches (r r' : Restriction) : Prop where
  resourceType : r.resourceType = r'.resourceType
  relation : r.relation = r'.relation
  subjectType : r.subjectType = r'.subjectType
  subjectRelation : r.subjectRelation.getD "" = r'.subjectRelation.getD ""

/-- The rule bases are equal up to missing and empty subject relations. -/
structure RuleBase.Matches (b c : RuleBase) : Prop where
  restrictions : List.Forall₂ Restriction.Matches b.restrictions c.restrictions
  unary : b.unary = c.unary
  binary : b.binary = c.binary

/-- The values of a restriction tell it up to a missing subject relation. -/
theorem Restriction.values_eq_iff {r r' : Restriction} : r.values = r'.values ↔ r.Matches r' := by
  constructor
  · intro h
    simp only [Restriction.values, List.cons.injEq, and_true] at h
    exact ⟨h.1, h.2.1, h.2.2.1, h.2.2.2⟩
  · intro h
    rw [Restriction.values, Restriction.values, h.resourceType, h.relation, h.subjectType,
      h.subjectRelation]

theorem UnaryRule.values_injective : Function.Injective UnaryRule.values := by
  rintro ⟨type, source, derived⟩ ⟨type', source', derived'⟩ h
  simpa [UnaryRule.values] using h

theorem BinaryRule.values_injective : Function.Injective BinaryRule.values := by
  rintro ⟨a, b, c, d, e⟩ ⟨a', b', c', d', e'⟩ h
  simpa [BinaryRule.values] using h

/-- Rule bases match if the rows of their tables are equal. -/
theorem RuleBase.matches_iff {b c : RuleBase} : b.Matches c ↔
    b.restrictions.map Restriction.values = c.restrictions.map Restriction.values ∧
      b.unary.map UnaryRule.values = c.unary.map UnaryRule.values ∧
      b.binary.map BinaryRule.values = c.binary.map BinaryRule.values := by
  have hrestrictions : b.restrictions.map Restriction.values =
      c.restrictions.map Restriction.values ↔
        List.Forall₂ Restriction.Matches b.restrictions c.restrictions := by
    rw [← List.forall₂_eq_eq_eq, List.forall₂_map_left_iff, List.forall₂_map_right_iff]
    simp only [Restriction.values_eq_iff]
  rw [hrestrictions, UnaryRule.values_injective.list_map.eq_iff,
    BinaryRule.values_injective.list_map.eq_iff]
  exact ⟨fun h => ⟨h.restrictions, h.unary, h.binary⟩, fun ⟨h, h', h''⟩ => ⟨h, h', h''⟩⟩

/-- Rule bases have one text if and only if they match, since the text can be read. -/
theorem RuleBase.sql_eq_iff {b c : RuleBase} : b.sql = c.sql ↔ b.Matches c := by
  rw [RuleBase.matches_iff]
  constructor
  · intro h
    have hread : some b.inserts = some c.inserts := by rw [← b.read_sql, ← c.read_sql, h]
    obtain ⟨hb, hb', hb''⟩ := b.rowsInto_inserts
    obtain ⟨hc, hc', hc''⟩ := c.rowsInto_inserts
    rw [← hb, ← hb', ← hb'', ← hc, ← hc', ← hc'', Option.some.inj hread]
    exact ⟨rfl, rfl, rfl⟩
  · rintro ⟨h, h', h''⟩
    rw [RuleBase.sql, RuleBase.sql, RuleBase.statements, RuleBase.statements, h, h', h'']

/-! ## Compiled rule bases -/

/-- The schema can be read from a text, of the schema language or of the wire form. -/
def Schema.Readable (s : Schema) : Prop :=
  (∃ text, Language.readSchema text = .ok s) ∨ ∃ text, Wire.readSchema text = .ok s

theorem Schema.Writable.subjectsNamed {s : Schema} (h : s.Writable) : s.SubjectsNamed := by
  intro t ht r hr u hu
  have hnames : ∀ n ∈ u.names, n ≠ "" := by
    rintro n hn rfl
    have hmem : "" ∈ s.names := by
      refine List.mem_flatMap.mpr ⟨t, ht, List.mem_cons_of_mem _ (List.mem_append_left _ ?_)⟩
      refine List.mem_flatMap.mpr ⟨r, hr, List.mem_cons_of_mem _ ?_⟩
      exact List.mem_flatMap.mpr ⟨u, hu, hn⟩
    obtain ⟨c, cs, hcs, _⟩ := h.names "" hmem
    simp at hcs
  refine ⟨hnames u.type List.mem_cons_self, fun hrel => hnames "" ?_ rfl⟩
  rw [Subject.names, hrel]
  simp

/-- Neither reader makes a subject with an empty relation. -/
theorem Schema.Readable.subjectsNamed {s : Schema} (h : s.Readable) : s.SubjectsNamed := by
  rcases h with ⟨text, h⟩ | ⟨text, h⟩
  · exact (Language.rendering_of_readSchema h).1.subjectsNamed
  · rw [Wire.readSchema] at h
    split at h
    · exact Wire.subjectsNamed_of_schema h
    · cases h

/-- In a rule base compiled from a schema that can be read no subject relation is empty. -/
theorem Schema.Readable.subjectRelation_ne {s : Schema} (hs : s.Readable) {recursive : Bool}
    {b : RuleBase} (h : s.compile recursive = .ok b) :
    ∀ r ∈ b.restrictions, r.subjectRelation ≠ some "" := by
  obtain ⟨order, _, rfl⟩ := Schema.emission_of_compile h
  intro r hr
  obtain ⟨t, ht, hr⟩ := List.mem_flatMap.mp hr
  obtain ⟨q, hq, hr⟩ := List.mem_flatMap.mp hr
  obtain ⟨u, hu, rfl⟩ := List.mem_map.mp hr
  exact (hs.subjectsNamed t (List.mem_mergeSort.mp ht) q (List.mem_mergeSort.mp hq) u hu).2

/-- Rule bases that match are equal if no subject relation is empty. -/
theorem RuleBase.Matches.eq {b c : RuleBase} (h : b.Matches c)
    (hb : ∀ r ∈ b.restrictions, r.subjectRelation ≠ some "")
    (hc : ∀ r ∈ c.restrictions, r.subjectRelation ≠ some "") : b = c := by
  have heq : ∀ {r r' : Restriction}, r.Matches r' → r.subjectRelation ≠ some "" →
      r'.subjectRelation ≠ some "" → r = r' := by
    rintro ⟨a, b, c, d⟩ ⟨a', b', c', d'⟩ ⟨h, h', h'', hd⟩ hne hne'
    cases d <;> cases d' <;> simp_all
  have hrestrictions : b.restrictions = c.restrictions := by
    rw [← List.forall₂_eq_eq_eq, List.forall₂_iff_zip]
    refine ⟨h.restrictions.length_eq, fun {r r'} hzip => ?_⟩
    obtain ⟨hr, hr'⟩ := List.of_mem_zip hzip
    exact heq (List.forall₂_zip h.restrictions hzip) (hb r hr) (hc r' hr')
  calc b = ⟨b.restrictions, b.unary, b.binary⟩ := rfl
    _ = ⟨c.restrictions, c.unary, c.binary⟩ := by rw [hrestrictions, h.unary, h.binary]

/-- The text of a rule base can be read back, whatever its names hold: what is read are the
statements that fill the tables with rows, and no others.  They insert the rows of the three tables
in order, where a missing subject relation is an empty string.  So two rule bases have one text if
and only if they are equal up to missing and empty subject relations, and simply if and only if they
are equal where both were compiled from schemas that were read from texts. -/
theorem RuleBase.sql_reads_back :
    (∀ b : RuleBase, Sql.read b.sql = some b.inserts ∧
      Sql.rowsInto "type_restrictions" b.inserts = b.restrictions.map Restriction.values ∧
      Sql.rowsInto "unary_rules" b.inserts = b.unary.map UnaryRule.values ∧
      Sql.rowsInto "binary_rules" b.inserts = b.binary.map BinaryRule.values) ∧
    (∀ b c : RuleBase, b.sql = c.sql ↔ b.Matches c) ∧
    (∀ (s t : Schema) (recursive recursive' : Bool) (b c : RuleBase), s.Readable → t.Readable →
      s.compile recursive = .ok b → t.compile recursive' = .ok c → (b.sql = c.sql ↔ b = c)) := by
  refine ⟨fun b => ⟨b.read_sql, b.rowsInto_inserts⟩, fun b c => RuleBase.sql_eq_iff, ?_⟩
  intro s t recursive recursive' b c hs ht hb hc
  constructor
  · intro h
    exact (RuleBase.sql_eq_iff.mp h).eq (hs.subjectRelation_ne hb) (ht.subjectRelation_ne hc)
  · rintro rfl
    rfl

-- Nothing in a name ends its literal.
example : RuleBase.sql ⟨[], [⟨"a'b", "');--", ""⟩], []⟩ =
    "INSERT INTO unary_rules VALUES\n('a''b', ''');--', '');" := by
  cbv

/-- A type with a quote in its name, whose relation `a` accepts its own objects. -/
def quotedType : Schema where
  types := [⟨"u'", [⟨"a", [⟨"u'", none⟩]⟩], []⟩]

/-- The same without the quote, and with a permission. -/
def plainType : Schema where
  types := [⟨"u", [⟨"a", [⟨"u", none⟩]⟩], [⟨"p", .name "a"⟩]⟩]

set_option maxRecDepth 2000 in
theorem readSchema_quotedType : Wire.readSchema
    "\x7b\"typeDefinitions\":\x7b\"u'\":\x7b\"relations\":
    \x7b\"a\":\x7b\"typeRestrictions\":[\x7b\"resourceType\":\"u'\"\x7d]\x7d\x7d\x7d\x7d\x7d" =
      .ok quotedType := by
  cbv

/-- The quote in the name is read as part of the name: the text holds one statement with one row. -/
theorem quotedType_sql_eq_iff :
    Sql.read (RuleBase.sql ⟨[⟨"u'", "a", "u'", none⟩], [], []⟩) =
        some [⟨"type_restrictions", [["u'", "a", "u'", ""]]⟩] ∧
      quotedType.Readable ∧ plainType.Readable ∧
      quotedType.compile = .ok ⟨[⟨"u'", "a", "u'", none⟩], [], []⟩ ∧
      plainType.compile = .ok ⟨[⟨"u", "a", "u", none⟩], [⟨"u", "a", "p"⟩], []⟩ ∧
      (RuleBase.sql ⟨[⟨"u'", "a", "u'", none⟩], [], []⟩ =
          RuleBase.sql ⟨[⟨"u", "a", "u", none⟩], [⟨"u", "a", "p"⟩], []⟩ ↔
        (⟨[⟨"u'", "a", "u'", none⟩], [], []⟩ : RuleBase) =
          ⟨[⟨"u", "a", "u", none⟩], [⟨"u", "a", "p"⟩], []⟩) := by
  have hquoted : quotedType.Readable := .inr ⟨_, readSchema_quotedType⟩
  have hplain : plainType.Readable :=
    .inl ⟨"definition u\x7brelation a:u permission p=a\x7d", by cbv⟩
  have hb : quotedType.compile = .ok ⟨[⟨"u'", "a", "u'", none⟩], [], []⟩ := by cbv
  have hc : plainType.compile = .ok ⟨[⟨"u", "a", "u", none⟩], [⟨"u", "a", "p"⟩], []⟩ := by cbv
  have hread := (RuleBase.sql_reads_back.1 ⟨[⟨"u'", "a", "u'", none⟩], [], []⟩).1
  exact ⟨hread, hquoted, hplain, hb, hc, RuleBase.sql_reads_back.2.2 _ _ _ _ _ _ hquoted hplain hb hc⟩

end Rebac
