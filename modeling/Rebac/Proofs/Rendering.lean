import Mathlib.Data.List.Forall2
import Rebac.Language.Reading
import Rebac.Proofs.Parsing

/-!
# Renderings of a schema

A schema has many texts.  Its types come in order, and the relations and the permissions of a type
do, but the two are interleaved as one likes.  Operands that are not names or arrows stand in
parentheses, and parentheses may be put around any expression.  Trivia stand between tokens.

`Schema.Written` says which lists of tokens are a schema's, with nothing about parsing, and `Spells`
which texts spell them.  Reading accepts these texts and no others, and only of schemas that keep
the rules of the language, `Schema.Writable` (`rendering_of_readSchema`, `readSchema_of_rendering`).

What was parsed stands in between.  A chain of terms is an expression if its operators agree
(`ofChain_eq_ok_iff`), and items and definitions are added one by one under names that are new
(`foldlM_addItem`, `foldlM_addDefinition`).
-/

namespace Rebac

open Rebac.Language

/-! ## Expressions -/

mutual

/-- A name, an arrow, or an expression in parentheses. -/
inductive Expr.WrittenTerm : Expr → List Token → Prop where
  | name {n : String} : Expr.WrittenTerm (.name n) [.name n]
  | arrow {base target : String} :
      Expr.WrittenTerm (.arrow base target) [.name base, .sign .arrow, .name target]
  | parens {e : Expr} {ts : List Token} : Expr.Written e ts →
      Expr.WrittenTerm e (.sign .leftParen :: (ts ++ [.sign .rightParen]))

/-- A term, or terms as operands of a union, an intersection or an exclusion. -/
inductive Expr.Written : Expr → List Token → Prop where
  | term {e : Expr} {ts : List Token} : Expr.WrittenTerm e ts → Expr.Written e ts
  | union {e : Expr} {es : List Expr} {ts us : List Token} : Expr.WrittenTerm e ts →
      Expr.AreWritten .union es us → Expr.Written (.union (e :: es)) (ts ++ us)
  | intersection {e : Expr} {es : List Expr} {ts us : List Token} : Expr.WrittenTerm e ts →
      Expr.AreWritten .intersection es us → Expr.Written (.intersection (e :: es)) (ts ++ us)
  | exclusion {e f : Expr} {ts us : List Token} : Expr.WrittenTerm e ts →
      Expr.AreWritten .exclusion [f] us → Expr.Written (.exclusion e f) (ts ++ us)

/-- Operands, each as a term after the operator. -/
inductive Expr.AreWritten : Operator → List Expr → List Token → Prop where
  | nil {op : Operator} : Expr.AreWritten op [] []
  | cons {op : Operator} {e : Expr} {es : List Expr} {ts us : List Token} :
      Expr.WrittenTerm e ts → Expr.AreWritten op es us →
        Expr.AreWritten op (e :: es) (.sign op.sign :: (ts ++ us))

end

mutual

/-- Every union and intersection in the expression has at least two operands. -/
def Expr.HasOperands : Expr → Prop
  | .name _ => True
  | .arrow _ _ => True
  | .union es => 2 ≤ es.length ∧ Expr.AllHaveOperands es
  | .intersection es => 2 ≤ es.length ∧ Expr.AllHaveOperands es
  | .exclusion e f => e.HasOperands ∧ f.HasOperands

/-- The same of every expression in a list. -/
def Expr.AllHaveOperands : List Expr → Prop
  | [] => True
  | e :: es => e.HasOperands ∧ Expr.AllHaveOperands es

end

mutual

/-- The names in an expression, in order. -/
def Expr.names : Expr → List String
  | .name n => [n]
  | .arrow base target => [base, target]
  | .union es => Expr.allNames es
  | .intersection es => Expr.allNames es
  | .exclusion e f => e.names ++ f.names

/-- The names in a list of expressions. -/
def Expr.allNames : List Expr → List String
  | [] => []
  | e :: es => e.names ++ Expr.allNames es

end

/-! ## Schemas -/

/-- The relations and the permissions of a body, each in order, and in between as they come. -/
inductive Interleaved : List Relation → List Permission → List Token → Prop where
  | nil : Interleaved [] [] []
  | relation {r : Relation} {rs : List Relation} {ps : List Permission} {ts : List Token} :
      Interleaved rs ps ts → Interleaved (r :: rs) ps (r.tokens ++ ts)
  | permission {p : Permission} {rs : List Relation} {ps : List Permission} {ts us : List Token} :
      p.expr.Written ts → Interleaved rs ps us → Interleaved rs (p :: ps)
        (.keyword .permission :: .name p.name :: .sign .equals :: ts ++ us)

/-- The tokens of a type. -/
inductive ObjectType.Written (t : ObjectType) : List Token → Prop where
  | body {ts : List Token} : Interleaved t.relations t.permissions ts → t.Written
      (.keyword .definition :: .name t.name :: .sign .leftBrace :: (ts ++ [.sign .rightBrace]))

/-- The tokens of a schema are those of its types, in order. -/
def Schema.Written (s : Schema) (ts : List Token) : Prop := Each ObjectType.Written s.types ts

/-- The type of a subject, and its relation if it has one. -/
def Subject.names (u : Subject) : List String := u.type :: u.relation.toList

/-- The name of a relation and those of its subjects. -/
def Relation.names (r : Relation) : List String := r.name :: r.subjects.flatMap Subject.names

/-- The name of a permission and those in its expression. -/
def Permission.names (p : Permission) : List String := p.name :: p.expr.names

/-- All names in a type. -/
def ObjectType.names (t : ObjectType) : List String :=
  t.name :: (t.relations.flatMap Relation.names ++ t.permissions.flatMap Permission.names)

/-- All names in a schema. -/
def Schema.names (s : Schema) : List String := s.types.flatMap ObjectType.names

/-- No two relations of a type have the same name, and no two permissions. -/
structure ObjectType.Distinct (t : ObjectType) : Prop where
  relations : (t.relations.map (·.name)).Nodup
  permissions : (t.permissions.map (·.name)).Nodup

theorem ObjectType.Distinct.of_sublist {t t' : ObjectType} (h : t.Distinct)
    (hrelations : t'.relations.Sublist t.relations)
    (hpermissions : t'.permissions.Sublist t.permissions) : t'.Distinct :=
  ⟨h.relations.sublist (hrelations.map _), h.permissions.sublist (hpermissions.map _)⟩

/-- Every relation accepts some subject, and in expressions no operands are missing. -/
structure ObjectType.Writable (t : ObjectType) : Prop extends t.Distinct where
  restricted : ∀ r ∈ t.relations, r.subjects ≠ []
  operands : ∀ p ∈ t.permissions, p.expr.HasOperands

/-- The rules of the language that tokens do not show. -/
structure Schema.Writable (s : Schema) : Prop where
  types : (s.types.map (·.name)).Nodup
  members : ∀ t ∈ s.types, t.Writable
  names : ∀ n ∈ s.names, IsName n

end Rebac

namespace Rebac.Language

/-! ### Chains -/

theorem bind_eq_ok_iff {ε α β : Type} {x : Except ε α} {f : α → Except ε β} {b : β} :
    (x >>= f) = .ok b ↔ ∃ a, x = .ok a ∧ f a = .ok b := by
  cases x with
  | error err => simp [bind, Except.bind]
  | ok a => simp [bind, Except.bind]

/-- The expression that an operator makes of its operands. -/
inductive Operator.Joins : Operator → Expr → List Expr → Expr → Prop where
  | union {e : Expr} {es : List Expr} : es ≠ [] → Joins .union e es (.union (e :: es))
  | intersection {e : Expr} {es : List Expr} :
      es ≠ [] → Joins .intersection e es (.intersection (e :: es))
  | exclusion {e f : Expr} : Joins .exclusion e [f] (.exclusion e f)

/-- A chain with one operator is what the operator makes of the operands. -/
theorem ofChain_cons {op : Operator} {e f e' : Expr} {es : List Expr} :
    ofChain e ((op, f) :: es.map (op, ·)) = .ok e' ↔ Operator.Joins op e (f :: es) e' := by
  have hsame : (es.map (op, ·)).any (·.1 ≠ op) = false := by simp
  have hmap : ((op, f) :: es.map (op, ·)).map (·.2) = f :: es := by simp [Function.comp_def]
  rw [ofChain.eq_def]
  simp only [hsame]
  cases op with
  | union =>
      simp only [hmap, Bool.false_eq_true, if_false, Except.ok.injEq]
      constructor
      · rintro rfl
        exact .union (by simp)
      · rintro ⟨⟩
        rfl
  | intersection =>
      simp only [hmap, Bool.false_eq_true, if_false, Except.ok.injEq]
      constructor
      · rintro rfl
        exact .intersection (by simp)
      · rintro ⟨⟩
        rfl
  | exclusion =>
      cases es with
      | nil =>
          simp only [List.map_nil, List.isEmpty_nil, Bool.false_eq_true, if_false, if_true,
            Except.ok.injEq]
          constructor
          · rintro rfl
            exact .exclusion
          · rintro ⟨⟩
            rfl
      | cons g es =>
          constructor
          · rintro ⟨⟩
          · rintro ⟨⟩

/-- A chain is a single term, or the operands of one operator. -/
theorem ofChain_eq_ok_iff {e e' : Expr} {xs : List (Operator × Expr)} :
    ofChain e xs = .ok e' ↔
      (xs = [] ∧ e' = e) ∨ ∃ op es, xs = es.map (op, ·) ∧ Operator.Joins op e es e' := by
  constructor
  · intro h
    rcases xs with - | ⟨⟨op, f⟩, more⟩
    · cases h
      exact .inl ⟨rfl, rfl⟩
    · by_cases hsame : ∀ x ∈ more, x.1 = op
      · have hmore : more = (more.map (·.2)).map (op, ·) := by
          rw [List.map_map]
          refine (List.map_id more).symm.trans (List.map_congr_left fun x hx => ?_)
          exact Prod.ext (hsame x hx) rfl
        rw [hmore] at h
        exact .inr ⟨op, f :: more.map (·.2), by rw [List.map_cons, ← hmore], ofChain_cons.mp h⟩
      · have hmixed : more.any (·.1 ≠ op) = true := by simpa using hsame
        simp only [ofChain.eq_def, hmixed, if_true] at h
        cases h
  · rintro (⟨rfl, rfl⟩ | ⟨op, es, rfl, hjoins⟩)
    · rfl
    · cases es with
      | nil => rcases hjoins with ⟨h⟩ | ⟨h⟩ <;> exact absurd rfl h
      | cons f es => exact ofChain_cons.mpr hjoins

/-- Terms give an expression if each does and they make a chain. -/
theorem Tree.expr_ofTerms {first : Tree} {rest : List (Operator × Tree)} {e' : Expr} :
    (first.ofTerms rest).expr = .ok e' ↔
      ∃ e xs, first.expr = .ok e ∧ Tree.exprs rest = .ok xs ∧ ofChain e xs = .ok e' := by
  cases rest with
  | nil =>
      simp [Tree.ofTerms, Tree.exprs, ofChain]
  | cons x rest =>
      change (Tree.chain first (x :: rest)).expr = .ok e' ↔ _
      rw [Tree.expr, bind_eq_ok_iff]
      simp only [bind_eq_ok_iff, exists_and_left]

theorem Tree.exprs_cons {op : Operator} {tree : Tree} {rest : List (Operator × Tree)}
    {xs : List (Operator × Expr)} : Tree.exprs ((op, tree) :: rest) = .ok xs ↔
      ∃ e ys, tree.expr = .ok e ∧ Tree.exprs rest = .ok ys ∧ xs = (op, e) :: ys := by
  rw [Tree.exprs, bind_eq_ok_iff]
  simp only [bind_eq_ok_iff, pure, Except.pure, Except.ok.injEq, exists_and_left, eq_comm (a := xs)]

/-! ### Trees and expressions -/

theorem two_le_length_cons_iff {e : Expr} {es : List Expr} :
    2 ≤ (e :: es).length ↔ es ≠ [] := by
  rw [List.length_cons, ← List.length_pos_iff]
  omega

mutual

/-- A term that gives an expression is one of its renderings, and no operands are missing. -/
theorem Tree.IsTerm.written {tree : Tree} {ts : List Token} {e : Expr} :
    tree.IsTerm ts → tree.expr = .ok e → e.WrittenTerm ts ∧ e.HasOperands
  | .name, he => by
      cases he
      exact ⟨.name, trivial⟩
  | .arrow, he => by
      cases he
      exact ⟨.arrow, trivial⟩
  | .parens h, he => by
      obtain ⟨hwritten, hoperands⟩ := h.written he
      exact ⟨.parens hwritten, hoperands⟩

/-- The same of expressions. -/
theorem Tree.IsExpression.written {tree : Tree} {ts : List Token} {e : Expr} :
    tree.IsExpression ts → tree.expr = .ok e → e.Written ts ∧ e.HasOperands
  | .terms hterm hrest, he => by
      obtain ⟨e, xs, hfirst, hxs, hchain⟩ := Tree.expr_ofTerms.mp he
      obtain ⟨hwritten, hoperands⟩ := hterm.written hfirst
      rcases ofChain_eq_ok_iff.mp hchain with ⟨rfl, rfl⟩ | ⟨op, es, rfl, hjoins⟩
      · -- No operands are operands of any operator, and have no tokens.
        have hxs : Tree.exprs _ = .ok (([] : List Expr).map (Operator.union, ·)) := hxs
        obtain ⟨hnil, _⟩ := hrest.written hxs
        cases hnil
        rw [List.append_nil]
        exact ⟨.term hwritten, hoperands⟩
      · obtain ⟨hmore, hall⟩ := hrest.written hxs
        cases hjoins with
        | union hne =>
          exact ⟨.union hwritten hmore, two_le_length_cons_iff.mpr hne, hoperands, hall⟩
        | intersection hne =>
          exact ⟨.intersection hwritten hmore, two_le_length_cons_iff.mpr hne, hoperands, hall⟩
        | exclusion => exact ⟨.exclusion hwritten hmore, hoperands, hall.1⟩

/-- The same of the operands of one operator. -/
theorem Tree.AreOperands.written {rest : List (Operator × Tree)} {us : List Token} {op : Operator}
    {es : List Expr} : Tree.AreOperands rest us → Tree.exprs rest = .ok (es.map (op, ·)) →
      Expr.AreWritten op es us ∧ Expr.AllHaveOperands es
  | .nil, hes => by
      rw [Tree.exprs, Except.ok.injEq] at hes
      rw [List.map_eq_nil_iff.mp hes.symm]
      exact ⟨.nil, trivial⟩
  | .cons hterm hrest, hes => by
      obtain ⟨e, ys, he, hys, hxs⟩ := Tree.exprs_cons.mp hes
      cases es with
      | nil => cases hxs
      | cons f es =>
        cases hxs
        obtain ⟨hwritten, hoperands⟩ := hterm.written he
        obtain ⟨hmore, hall⟩ := hrest.written hys
        exact ⟨.cons hwritten hmore, hoperands, hall⟩

end

/-- Operands that are joined by one operator make an expression. -/
theorem Operator.Joins.exists_isExpression {op : Operator} {e e' : Expr} {es : List Expr}
    {ts us : List Token} (hjoins : op.Joins e es e')
    (hfirst : ∃ tree : Tree, tree.IsTerm ts ∧ tree.expr = .ok e)
    (hrest : ∃ rest, Tree.AreOperands rest us ∧ Tree.exprs rest = .ok (es.map (op, ·))) :
    ∃ tree : Tree, tree.IsExpression (ts ++ us) ∧ tree.expr = .ok e' := by
  obtain ⟨first, hterm, he⟩ := hfirst
  obtain ⟨rest, hoperands, hes⟩ := hrest
  refine ⟨first.ofTerms rest, .terms hterm hoperands, ?_⟩
  exact Tree.expr_ofTerms.mpr ⟨e, _, he, hes, ofChain_eq_ok_iff.mpr (.inr ⟨op, es, rfl, hjoins⟩)⟩

mutual

/-- A rendering of an expression as a term is parsed into a term that gives it. -/
theorem exists_isTerm {e : Expr} {ts : List Token} : e.WrittenTerm ts → e.HasOperands →
    ∃ tree : Tree, tree.IsTerm ts ∧ tree.expr = .ok e
  | .name, _ => ⟨_, .name, by rw [Tree.expr]⟩
  | .arrow, _ => ⟨_, .arrow, by rw [Tree.expr]⟩
  | .parens h, hoperands => by
      obtain ⟨tree, htree, he⟩ := exists_isExpression h hoperands
      exact ⟨tree, .parens htree, he⟩

/-- The same of renderings without parentheses. -/
theorem exists_isExpression {e : Expr} {ts : List Token} : e.Written ts → e.HasOperands →
    ∃ tree : Tree, tree.IsExpression ts ∧ tree.expr = .ok e
  | .term hterm, hoperands => by
      obtain ⟨tree, htree, he⟩ := exists_isTerm hterm hoperands
      refine ⟨tree.ofTerms [], ?_, he⟩
      simpa using Tree.IsExpression.terms htree .nil
  | .union hterm hes, ⟨hlength, hfirst, hall⟩ =>
      (Operator.Joins.union (two_le_length_cons_iff.mp hlength)).exists_isExpression
        (exists_isTerm hterm hfirst) (exists_areOperands hes hall)
  | .intersection hterm hes, ⟨hlength, hfirst, hall⟩ =>
      (Operator.Joins.intersection (two_le_length_cons_iff.mp hlength)).exists_isExpression
        (exists_isTerm hterm hfirst) (exists_areOperands hes hall)
  | .exclusion hterm hes, ⟨hbase, hexcluded⟩ =>
      Operator.Joins.exclusion.exists_isExpression
        (exists_isTerm hterm hbase) (exists_areOperands hes ⟨hexcluded, trivial⟩)

/-- The same of the operands of one operator. -/
theorem exists_areOperands {op : Operator} {es : List Expr} {us : List Token} :
    Expr.AreWritten op es us → Expr.AllHaveOperands es →
      ∃ rest, Tree.AreOperands rest us ∧ Tree.exprs rest = .ok (es.map (op, ·))
  | .nil, _ => ⟨[], .nil, by rw [Tree.exprs]; rfl⟩
  | .cons hterm hes, hall => by
      obtain ⟨tree, htree, he⟩ := exists_isTerm hterm hall.1
      obtain ⟨rest, hrest, hxs⟩ := exists_areOperands hes hall.2
      exact ⟨_, .cons htree hrest, Tree.exprs_cons.mpr ⟨_, _, he, hxs, rfl⟩⟩

end

/-! ## Bodies -/

/-- The items give these relations and permissions. -/
inductive Gives : List Item → List Relation → List Permission → Prop where
  | nil : Gives [] [] []
  | relation {r : Relation} {is : List Item} {rs : List Relation} {ps : List Permission} :
      Gives is rs ps → Gives (.relation r :: is) (r :: rs) ps
  | permission {n : String} {tree : Tree} {e : Expr} {is : List Item} {rs : List Relation}
      {ps : List Permission} : tree.expr = .ok e → Gives is rs ps →
        Gives (.permission n tree :: is) rs (⟨n, e⟩ :: ps)

/-- What is added under a name that a lookup does not find keeps the names distinct. -/
theorem ite_found_eq_ok {ε α β : Type} (key : α → String) {l : List α} {a : α}
    (h : (l.map key).Nodup) {err : ε} {x y : β} :
    (if (l.find? (key · == key a)).isSome then .error err else .ok x) = Except.ok y ↔
      y = x ∧ ((l ++ [a]).map key).Nodup := by
  have hfresh : (l.find? (key · == key a)).isSome = false ↔ ((l ++ [a]).map key).Nodup := by
    rw [List.map_append, List.nodup_append]
    simp [h]
  rw [← hfresh]
  split
  · rename_i hfound
    simp [hfound]
  · rename_i hfound
    simp [hfound, eq_comm]

/-- A relation is added at the end, if its name is new. -/
theorem addItem_relation {t t' : ObjectType} (ht : t.Distinct) {r : Relation} :
    addItem t (.relation r) = .ok t' ↔
      t' = ⟨t.name, t.relations ++ [r], t.permissions⟩ ∧ t'.Distinct := by
  rw [addItem, ObjectType.relation?, ite_found_eq_ok Relation.name ht.relations]
  constructor
  · rintro ⟨rfl, hnodup⟩
    exact ⟨rfl, hnodup, ht.permissions⟩
  · rintro ⟨rfl, hdistinct⟩
    exact ⟨rfl, hdistinct.relations⟩

/-- A permission is added at the end, if its tree gives an expression and its name is new. -/
theorem addItem_permission {t t' : ObjectType} (ht : t.Distinct) {n : String} {tree : Tree} :
    addItem t (.permission n tree) = .ok t' ↔ ∃ e, tree.expr = .ok e ∧
      t' = ⟨t.name, t.relations, t.permissions ++ [⟨n, e⟩]⟩ ∧ t'.Distinct := by
  rw [addItem, bind_eq_ok_iff]
  refine exists_congr fun e => and_congr_right fun _ => ?_
  rw [ObjectType.permission?, ite_found_eq_ok Permission.name (a := ⟨n, e⟩) ht.permissions]
  constructor
  · rintro ⟨rfl, hnodup⟩
    exact ⟨rfl, ht.relations, hnodup⟩
  · rintro ⟨rfl, hdistinct⟩
    exact ⟨rfl, hdistinct.permissions⟩

/-- Items are added one by one, and the names stay distinct. -/
theorem foldlM_addItem {is : List Item} {t t' : ObjectType} (ht : t.Distinct) :
    is.foldlM addItem t = .ok t' ↔ (∃ rs ps, Gives is rs ps ∧
      t' = ⟨t.name, t.relations ++ rs, t.permissions ++ ps⟩) ∧ t'.Distinct := by
  induction is generalizing t with
  | nil =>
      rw [List.foldlM_nil]
      constructor
      · rintro ⟨⟩
        exact ⟨⟨[], [], .nil, by simp⟩, ht⟩
      · rintro ⟨⟨rs, ps, hgives, rfl⟩, _⟩
        cases hgives
        simp [pure, Except.pure]
  | cons i is ih =>
      rw [List.foldlM_cons, bind_eq_ok_iff]
      constructor
      · rintro ⟨t₁, hadd, hrest⟩
        cases i with
        | relation r =>
            obtain ⟨rfl, ht₁⟩ := (addItem_relation ht).mp hadd
            obtain ⟨⟨rs, ps, hgives, rfl⟩, ht'⟩ := (ih ht₁).mp hrest
            exact ⟨⟨r :: rs, ps, .relation hgives, by simp⟩, ht'⟩
        | permission n tree =>
            obtain ⟨e, he, rfl, ht₁⟩ := (addItem_permission ht).mp hadd
            obtain ⟨⟨rs, ps, hgives, rfl⟩, ht'⟩ := (ih ht₁).mp hrest
            exact ⟨⟨rs, ⟨n, e⟩ :: ps, .permission he hgives, by simp⟩, ht'⟩
      · rintro ⟨⟨rs, ps, hgives, rfl⟩, ht'⟩
        cases hgives with
        | @relation r is rs ps hgives =>
            have ht₁ : ObjectType.Distinct ⟨t.name, t.relations ++ [r], t.permissions⟩ :=
              ht'.of_sublist (by simp) (by simp)
            exact ⟨_, (addItem_relation ht).mpr ⟨rfl, ht₁⟩,
              (ih ht₁).mpr ⟨⟨rs, ps, hgives, by simp⟩, ht'⟩⟩
        | @permission n tree e is rs ps he hgives =>
            have ht₁ : ObjectType.Distinct ⟨t.name, t.relations, t.permissions ++ [⟨n, e⟩]⟩ :=
              ht'.of_sublist (by simp) (by simp)
            exact ⟨_, (addItem_permission ht).mpr ⟨e, he, rfl, ht₁⟩,
              (ih ht₁).mpr ⟨⟨rs, ps, hgives, by simp⟩, ht'⟩⟩

/-- Every item is written, and the items give these declarations. -/
theorem exists_gives_iff {rs : List Relation} {ps : List Permission} {ts : List Token} :
    (∃ is, Each Item.Written is ts ∧ Gives is rs ps) ↔
      Interleaved rs ps ts ∧ (∀ r ∈ rs, r.subjects ≠ []) ∧ ∀ p ∈ ps, p.expr.HasOperands := by
  constructor
  · rintro ⟨is, hwritten, hgives⟩
    induction hgives generalizing ts with
    | nil =>
        cases hwritten
        exact ⟨.nil, by simp⟩
    | relation _ ih =>
        cases hwritten with
        | cons hitem hrest =>
          cases hitem with
          | relation hne =>
            obtain ⟨hbody, hrs, hps⟩ := ih hrest
            exact ⟨.relation hbody, List.forall_mem_cons.mpr ⟨hne, hrs⟩, hps⟩
    | permission he _ ih =>
        cases hwritten with
        | cons hitem hrest =>
          cases hitem with
          | permission htree =>
            obtain ⟨hexpr, hoperands⟩ := htree.written he
            obtain ⟨hbody, hrs, hps⟩ := ih hrest
            exact ⟨.permission hexpr hbody, hrs, List.forall_mem_cons.mpr ⟨hoperands, hps⟩⟩
  · rintro ⟨hbody, hrs, hps⟩
    induction hbody with
    | nil => exact ⟨[], .nil, .nil⟩
    | relation _ ih =>
        rw [List.forall_mem_cons] at hrs
        obtain ⟨is, hwritten, hgives⟩ := ih hrs.2 hps
        exact ⟨_, .cons (.relation hrs.1) hwritten, .relation hgives⟩
    | permission hexpr _ ih =>
        rw [List.forall_mem_cons] at hps
        obtain ⟨tree, htree, he⟩ := exists_isExpression hexpr hps.1
        obtain ⟨is, hwritten, hgives⟩ := ih hrs hps.2
        exact ⟨_, .cons (.permission htree) hwritten, .permission he hgives⟩

/-- A definition of the tokens is read as the type. -/
theorem exists_objectType_iff {t : ObjectType} {ts : List Token} :
    (∃ d : Definition, d.Written ts ∧ d.objectType = .ok t) ↔ t.Written ts ∧ t.Writable := by
  have hempty : ∀ n, ObjectType.Distinct ⟨n, [], []⟩ := fun n => ⟨.nil, .nil⟩
  constructor
  · rintro ⟨d, ⟨hitems⟩, hread⟩
    obtain ⟨⟨rs, ps, hgives, rfl⟩, hdistinct⟩ := (foldlM_addItem (hempty _)).mp hread
    obtain ⟨hbody, hrs, hps⟩ := exists_gives_iff.mp ⟨_, hitems, hgives⟩
    exact ⟨.body hbody, hdistinct, hrs, hps⟩
  · rintro ⟨⟨hbody⟩, hwritable⟩
    obtain ⟨is, hitems, hgives⟩ :=
      exists_gives_iff.mpr ⟨hbody, hwritable.restricted, hwritable.operands⟩
    exact ⟨⟨t.name, is⟩, .mk hitems,
      (foldlM_addItem (hempty _)).mpr ⟨⟨_, _, hgives, rfl⟩, hwritable.toDistinct⟩⟩

/-! ## Whole schemas -/

/-- A type is added at the end, if its name is new. -/
theorem addDefinition_eq_ok_iff {l : List ObjectType} (hl : (l.map (·.name)).Nodup)
    {d : Definition} {s : Schema} : addDefinition ⟨l⟩ d = .ok s ↔ ∃ t, d.objectType = .ok t ∧
      s = ⟨l ++ [t]⟩ ∧ ((l ++ [t]).map (·.name)).Nodup := by
  rw [addDefinition, bind_eq_ok_iff]
  refine exists_congr fun t => and_congr_right fun _ => ?_
  rw [Schema.type?, ite_found_eq_ok ObjectType.name hl]

/-- Types are added one by one, and their names stay distinct. -/
theorem foldlM_addDefinition {ds : List Definition} {l : List ObjectType} {s : Schema}
    (hl : (l.map (·.name)).Nodup) : ds.foldlM addDefinition ⟨l⟩ = .ok s ↔
      (∃ types, s = ⟨l ++ types⟩ ∧ List.Forall₂ (fun d t => d.objectType = .ok t) ds types) ∧
        (s.types.map (·.name)).Nodup := by
  induction ds generalizing l with
  | nil =>
      rw [List.foldlM_nil]
      constructor
      · rintro ⟨⟩
        exact ⟨⟨[], by simp, .nil⟩, hl⟩
      · rintro ⟨⟨types, rfl, hread⟩, _⟩
        cases hread
        simp [pure, Except.pure]
  | cons d ds ih =>
      simp only [List.foldlM_cons, bind_eq_ok_iff, addDefinition_eq_ok_iff hl]
      constructor
      · rintro ⟨_, ⟨t, ht, rfl, hnodup⟩, hrest⟩
        obtain ⟨⟨types, rfl, hread⟩, hs⟩ := (ih hnodup).mp hrest
        exact ⟨⟨t :: types, by simp, .cons ht hread⟩, hs⟩
      · rintro ⟨⟨_, rfl, hread⟩, hs⟩
        cases hread with
        | @cons _ t _ types ht hread =>
          have hnodup : ((l ++ [t]).map (·.name)).Nodup :=
            hs.sublist (List.Sublist.map _ (by simp))
          exact ⟨_, ⟨t, ht, rfl, hnodup⟩, (ih hnodup).mpr ⟨⟨types, by simp, hread⟩, hs⟩⟩

/-- Values that stand for others, one for one, are written as these are. -/
theorem exists_each_forall₂_iff {α β : Type} {W : α → List Token → Prop} {R : α → β → Prop}
    {bs : List β} {ts : List Token} : (∃ as, Each W as ts ∧ List.Forall₂ R as bs) ↔
      Each (fun b ts => ∃ a, W a ts ∧ R a b) bs ts := by
  constructor
  · rintro ⟨as, hwritten, hbs⟩
    induction hwritten generalizing bs with
    | nil =>
        cases hbs
        exact .nil
    | cons ha _ ih =>
        cases hbs with
        | cons hb hbs => exact .cons ⟨_, ha, hb⟩ (ih hbs)
  · intro h
    induction h with
    | nil => exact ⟨[], .nil, .nil⟩
    | cons hb _ ih =>
        obtain ⟨a, ha, hab⟩ := hb
        obtain ⟨as, has, hbs⟩ := ih
        exact ⟨a :: as, .cons ha has, .cons hab hbs⟩

/-- A property of each value can be taken out of the writing. -/
theorem each_and_iff {α : Type} {W : α → List Token → Prop} {P : α → Prop} {as : List α}
    {ts : List Token} :
    Each (fun a ts => W a ts ∧ P a) as ts ↔ Each W as ts ∧ ∀ a ∈ as, P a := by
  constructor
  · intro h
    induction h with
    | nil => exact ⟨.nil, by simp⟩
    | cons ha _ ih => exact ⟨.cons ha.1 ih.1, List.forall_mem_cons.mpr ⟨ha.2, ih.2⟩⟩
  · rintro ⟨h, hP⟩
    induction h with
    | nil => exact .nil
    | cons ha _ ih =>
        rw [List.forall_mem_cons] at hP
        exact .cons ⟨ha, hP.1⟩ (ih hP.2)

/-! ## Names in tokens -/

theorem mem_intercalate_iff {α : Type} {sep t : Token} (ht : t ≠ sep) (f : α → List Token)
    (l : List α) : t ∈ [sep].intercalate (l.map f) ↔ ∃ a ∈ l, t ∈ f a := by
  cases l with
  | nil => simp [List.intercalate]
  | cons a l =>
      rw [intercalate_cons_eq_flatMap]
      simp [ht]

@[simp] theorem name_mem_subjectTokens {n : String} {u : Subject} :
    .name n ∈ u.tokens ↔ n ∈ u.names := by
  obtain ⟨type, relation⟩ := u
  cases relation with
  | none => simp [Subject.tokens, Subject.names]
  | some m => simp [Subject.tokens, Subject.names]

@[simp] theorem name_mem_relationTokens {n : String} {r : Relation} :
    .name n ∈ r.tokens ↔ n ∈ r.names := by
  simp [Relation.tokens, Relation.names, mem_intercalate_iff]

mutual

theorem name_mem_iff_of_writtenTerm {n : String} {e : Expr} {ts : List Token} :
    e.WrittenTerm ts → (.name n ∈ ts ↔ n ∈ e.names)
  | .name => by simp [Expr.names]
  | .arrow => by simp [Expr.names]
  | .parens h => by simpa using name_mem_iff_of_written h

/-- The names among the tokens of an expression are its names. -/
theorem name_mem_iff_of_written {n : String} {e : Expr} {ts : List Token} :
    e.Written ts → (.name n ∈ ts ↔ n ∈ e.names)
  | .term h => name_mem_iff_of_writtenTerm h
  | .union h hs => by
      simp [Expr.names, Expr.allNames, name_mem_iff_of_writtenTerm h, name_mem_iff_of_areWritten hs]
  | .intersection h hs => by
      simp [Expr.names, Expr.allNames, name_mem_iff_of_writtenTerm h, name_mem_iff_of_areWritten hs]
  | .exclusion h hs => by
      simp [Expr.names, Expr.allNames, name_mem_iff_of_writtenTerm h, name_mem_iff_of_areWritten hs]

theorem name_mem_iff_of_areWritten {n : String} {op : Operator} {es : List Expr}
    {us : List Token} : Expr.AreWritten op es us → (.name n ∈ us ↔ n ∈ Expr.allNames es)
  | .nil => by simp [Expr.allNames]
  | .cons h hs => by
      simp [Expr.allNames, name_mem_iff_of_writtenTerm h, name_mem_iff_of_areWritten hs]

end

theorem name_mem_iff_of_interleaved {n : String} {rs : List Relation} {ps : List Permission}
    {ts : List Token} (h : Interleaved rs ps ts) :
    .name n ∈ ts ↔ n ∈ rs.flatMap Relation.names ++ ps.flatMap Permission.names := by
  induction h with
  | nil => simp
  | relation _ ih => simp [ih]
  | permission hexpr _ ih =>
      simp [ih, Permission.names, name_mem_iff_of_written hexpr, or_left_comm]

/-- The names among the tokens are the names of the schema. -/
theorem name_mem_iff_of_schema {n : String} {s : Schema} {ts : List Token} (h : s.Written ts) :
    .name n ∈ ts ↔ n ∈ s.names := by
  obtain ⟨types⟩ := s
  change Each ObjectType.Written types ts at h
  induction h with
  | nil => simp [Schema.names]
  | @cons t types ts us ht _ ih =>
      rw [List.mem_append, ih]
      cases ht with
      | body hbody =>
          simp [Schema.names, ObjectType.names, name_mem_iff_of_interleaved hbody, or_assoc]

/-- Tokens can be read back if the names among them have the form of names. -/
theorem forall_valid_iff {ts : List Token} :
    (∀ t ∈ ts, t.Valid) ↔ ∀ n, .name n ∈ ts → IsName n := by
  constructor
  · intro h n hn
    exact h _ hn
  · intro h t ht
    cases t with
    | name n => exact h n ht
    | keyword k => trivial
    | sign s => trivial


/-! ## Names apart -/

/-- No two names stand side by side, and the first token is no name. -/
def Fenced (ts : List Token) : Prop := NamesApart ts ∧ ∀ t ∈ ts.head?, t.isName = false

theorem fenced_nil : Fenced [] := ⟨.nil, by simp⟩

theorem NamesApart.fenced_cons {t : Token} {ts : List Token} (h : NamesApart ts)
    (ht : t.isName = false) : Fenced (t :: ts) := by
  refine ⟨List.isChain_cons.mpr ⟨fun u _ hname => ?_, h⟩, ?_⟩
  · simp [ht] at hname
  · simpa using ht

theorem Fenced.namesApart_cons {t : Token} {ts : List Token} (h : Fenced ts) :
    NamesApart (t :: ts) :=
  List.isChain_cons.mpr ⟨fun u hu _ => h.2 u hu, h.1⟩

/-- Names stay apart where fenced tokens follow. -/
theorem NamesApart.append {ts us : List Token} (h : NamesApart ts) (h' : Fenced us) :
    NamesApart (ts ++ us) :=
  List.isChain_append.mpr ⟨h, h'.1, fun _ _ u hu _ => h'.2 u hu⟩

theorem Fenced.append {ts us : List Token} (h : Fenced ts) (h' : Fenced us) : Fenced (ts ++ us) := by
  refine ⟨h.1.append h', ?_⟩
  cases ts with
  | nil => exact h'.2
  | cons t ts => exact h.2

theorem Subject.namesApart_tokens (u : Subject) : NamesApart u.tokens := by
  obtain ⟨type, relation⟩ := u
  cases relation with
  | none => exact .singleton _
  | some n => exact (NamesApart.fenced_cons (.singleton _) rfl).namesApart_cons

theorem Relation.fenced_tokens (r : Relation) : Fenced r.tokens := by
  have hsubjects : NamesApart ([.sign .bar].intercalate (r.subjects.map Subject.tokens)) := by
    cases r.subjects with
    | nil => exact .nil
    | cons u us =>
        rw [intercalate_cons_eq_flatMap]
        refine (Subject.namesApart_tokens u).append ?_
        induction us with
        | nil => exact fenced_nil
        | cons v us ih =>
            exact Fenced.append ((Subject.namesApart_tokens v).fenced_cons rfl) ih
  exact (hsubjects.fenced_cons rfl).namesApart_cons.fenced_cons rfl

mutual

theorem namesApart_of_writtenTerm {e : Expr} {ts : List Token} : e.WrittenTerm ts → NamesApart ts
  | .name => .singleton _
  | .arrow => (NamesApart.fenced_cons (.singleton _) rfl).namesApart_cons
  | .parens h =>
      (((namesApart_of_written h).append (NamesApart.fenced_cons .nil rfl)).fenced_cons rfl).1

/-- In an expression, names are apart by operators, arrows and parentheses. -/
theorem namesApart_of_written {e : Expr} {ts : List Token} : e.Written ts → NamesApart ts
  | .term h => namesApart_of_writtenTerm h
  | .union h hs => (namesApart_of_writtenTerm h).append (fenced_of_areWritten hs)
  | .intersection h hs => (namesApart_of_writtenTerm h).append (fenced_of_areWritten hs)
  | .exclusion h hs => (namesApart_of_writtenTerm h).append (fenced_of_areWritten hs)

theorem fenced_of_areWritten {op : Operator} {es : List Expr} {us : List Token} :
    Expr.AreWritten op es us → Fenced us
  | .nil => fenced_nil
  | .cons h hs =>
      ((namesApart_of_writtenTerm h).append (fenced_of_areWritten hs)).fenced_cons rfl

end

/-- Declarations begin with a keyword, so they are fenced. -/
theorem fenced_of_interleaved {rs : List Relation} {ps : List Permission} {ts : List Token}
    (h : Interleaved rs ps ts) : Fenced ts := by
  induction h with
  | nil => exact fenced_nil
  | relation _ ih => exact (Relation.fenced_tokens _).append ih
  | permission hexpr _ ih =>
      have hexpr := (namesApart_of_written hexpr).fenced_cons (t := .sign .equals) rfl
      exact (hexpr.namesApart_cons.fenced_cons rfl).append ih

/-- In the tokens of a schema no two names stand side by side. -/
theorem fenced_of_schema {s : Schema} {ts : List Token} (h : s.Written ts) : Fenced ts := by
  obtain ⟨types⟩ := s
  change Each ObjectType.Written types ts at h
  induction h with
  | nil => exact fenced_nil
  | cons ht _ ih =>
      cases ht with
      | body hbody =>
          have hbody := (fenced_of_interleaved hbody).append
            (NamesApart.fenced_cons (t := .sign .rightBrace) .nil rfl)
          exact ((hbody.1.fenced_cons rfl).namesApart_cons.fenced_cons rfl).append ih

/-! ## Reading -/

/-- Tokens that were scanned can be read back. -/
theorem Scans.valid {ts : List Token} {r rest : List Char} (h : Scans ts r rest) :
    ∀ t ∈ ts, t.Valid := by
  induction h with
  | nil => simp
  | cons hvalid _ _ _ ih => exact List.forall_mem_cons.mpr ⟨hvalid, ih⟩

/-- Reading is parsing definitions and adding them one by one. -/
theorem readSchema_eq_ok_iff_definitions {text : String} {s : Schema} : readSchema text = .ok s ↔
    ∃ ds, (∃ rest, schemaText.run text.toList = some (ds, rest)) ∧
      ds.foldlM addDefinition ⟨[]⟩ = .ok s := by
  cases hrun : schemaText.run text.toList with
  | none =>
      have hresult : (schemaText text.toList).result = none := hrun
      simp [readSchema, hresult]
  | some x =>
      have hresult : (schemaText text.toList).result = some x := hrun
      simp [readSchema, hresult, Prod.ext_iff, eq_comm]

/-- Definitions of the tokens are read as the schema. -/
theorem exists_definitions_iff {s : Schema} {ts : List Token} :
    (∃ ds, Each Definition.Written ds ts ∧ ds.foldlM addDefinition ⟨[]⟩ = .ok s) ↔
      s.Written ts ∧ (s.types.map (·.name)).Nodup ∧ ∀ t ∈ s.types, t.Writable := by
  have htypes : (∃ ds, Each Definition.Written ds ts ∧
      List.Forall₂ (fun d t => d.objectType = .ok t) ds s.types) ↔
        Each ObjectType.Written s.types ts ∧ ∀ t ∈ s.types, t.Writable := by
    simp only [exists_each_forall₂_iff, exists_objectType_iff, each_and_iff]
  constructor
  · rintro ⟨ds, hds, hread⟩
    obtain ⟨⟨types, rfl, htypes'⟩, hnodup⟩ := (foldlM_addDefinition (l := []) .nil).mp hread
    obtain ⟨hwritten, hwritable⟩ := htypes.mp ⟨ds, hds, htypes'⟩
    exact ⟨hwritten, hnodup, hwritable⟩
  · rintro ⟨hwritten, hnodup, hwritable⟩
    obtain ⟨ds, hds, hread⟩ := htypes.mpr ⟨hwritten, hwritable⟩
    exact ⟨ds, hds, (foldlM_addDefinition (l := []) .nil).mpr ⟨⟨s.types, rfl, hread⟩, hnodup⟩⟩

/-- What is read from a text can be written, and the text is a rendering of it. -/
theorem rendering_of_readSchema {text : String} {s : Schema} (h : readSchema text = .ok s) :
    s.Writable ∧ ∃ ts, s.Written ts ∧ Spells false ts text.toList := by
  obtain ⟨ds, hparse, hread⟩ := readSchema_eq_ok_iff_definitions.mp h
  obtain ⟨ts, mid, hds, hscans, hmid⟩ := exists_run_schemaText_iff.mp hparse
  obtain ⟨hwritten, hnodup, hwritable⟩ := exists_definitions_iff.mp ⟨ds, hds, hread⟩
  have hnames := forall_valid_iff.mp hscans.valid
  refine ⟨⟨hnodup, hwritable, fun n hn => ?_⟩, ts, hwritten, hscans.spells hmid (by simp)⟩
  exact hnames n ((name_mem_iff_of_schema hwritten).mpr hn)

/-- A rendering of a schema that can be written is read as the schema. -/
theorem readSchema_of_rendering {text : String} {s : Schema} {ts : List Token} (hs : s.Writable)
    (hwritten : s.Written ts) (hspells : Spells false ts text.toList) :
    readSchema text = .ok s := by
  have hvalid : ∀ t ∈ ts, t.Valid := forall_valid_iff.mpr fun n hn =>
    hs.names n ((name_mem_iff_of_schema hwritten).mp hn)
  obtain ⟨mid, hscans, hmid⟩ := hspells.scans hvalid (fenced_of_schema hwritten).1
  obtain ⟨ds, hds, hread⟩ := exists_definitions_iff.mpr ⟨hwritten, hs.types, hs.members⟩
  have hparse := exists_run_schemaText_iff.mpr ⟨ts, mid, hds, hscans, hmid⟩
  exact readSchema_eq_ok_iff_definitions.mpr ⟨ds, hparse, hread⟩

/-- A text is read as a schema if and only if the schema can be written and the text is one of its
renderings. -/
theorem readSchema_eq_ok_iff {text : String} {s : Schema} : readSchema text = .ok s ↔
    s.Writable ∧ ∃ ts, s.Written ts ∧ Spells false ts text.toList := by
  constructor
  · exact rendering_of_readSchema
  · rintro ⟨hs, ts, hwritten, hspells⟩
    exact readSchema_of_rendering hs hwritten hspells

-- A keyword needs no blank after it, and parentheses may be put around a name.
example : readSchema "definition a\x7brelationb:c//\npermission d=(b)&(b-c)\x7d" =
    .ok ⟨[⟨"a", [⟨"b", [⟨"c", none⟩]⟩],
      [⟨"d", .intersection [.name "b", .exclusion (.name "b") (.name "c")]⟩]⟩]⟩ := by
  cbv

end Rebac.Language
