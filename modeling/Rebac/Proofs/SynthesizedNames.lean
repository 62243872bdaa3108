import Mathlib
import Rebac.Language.Reading
import Rebac.Proofs.Translation
import Rebac.Validation

-- `cbv` takes the equations of core functions from the library, hence the whole of it.

/-!
# Synthesized names

A composite operand of an intersection is derived under a synthesized name.  On
the way from a permission to the operand every intersection adds a separator and
the index of the operand, and every union adds nothing.  So the name of a part is
the name of the permission followed by the indices of the intersections passed,
and it can be read back: the part before the first separator is the permission
(`Expr.Expands.baseName_eq`), and two parts of one permission share a name exactly if
they pass the same indices (`Expr.Expands.name_eq_iff`).

Positions that differ only in turns at unions therefore share a name.  The
operands of a permission have different names exactly if their positions can be
told apart by the turns at intersections alone.
-/

namespace Rebac

/-! ## The text of a synthesized name -/

theorem operandName_toList (d : String) (i : Nat) :
    (operandName d i).toList = d.toList ++ separator :: Nat.toDigits 10 i := by
  simp [operandName]

theorem separator_not_mem_toDigits (i : Nat) : separator ∉ Nat.toDigits 10 i := by
  intro h
  exact absurd (Nat.isDigit_of_mem_toDigits (by decide) (by decide) h) (by decide)

/-- What operand indices add to a name. -/
def operandSuffix (indices : List Nat) : List Char :=
  indices.flatMap fun i => separator :: Nat.toDigits 10 i

/-- A synthesized name is the name it starts from and a suffix. -/
theorem foldl_operandName_toList (d : String) (indices : List Nat) :
    (indices.foldl operandName d).toList = d.toList ++ operandSuffix indices := by
  induction indices generalizing d with
  | nil => simp [operandSuffix]
  | cons i is ih =>
      rw [List.foldl_cons, ih, operandName_toList, List.append_assoc]
      rfl

/-- Up to the first separator a suffix is empty. -/
theorem takeWhile_operandSuffix (indices : List Nat) :
    (operandSuffix indices).takeWhile (· ≠ separator) = [] := by
  cases indices with
  | nil => rfl
  | cons i is => simp [operandSuffix]

theorem takeWhile_append_operandSuffix {cs : List Char} (h : separator ∉ cs) (indices : List Nat) :
    (cs ++ operandSuffix indices).takeWhile (· ≠ separator) = cs := by
  rw [List.takeWhile_append_of_pos, takeWhile_operandSuffix, List.append_nil]
  intro c hc
  simpa using ne_of_mem_of_not_mem hc h

theorem toDigits_injective {i j : Nat} (h : Nat.toDigits 10 i = Nat.toDigits 10 j) : i = j := by
  rw [← Nat.ofDigitChars_ten_toDigits (n := i), h, Nat.ofDigitChars_ten_toDigits]

/-- A suffix gives its indices back: the digits of an index end at the next
separator. -/
theorem operandSuffix_injective : ∀ {is js : List Nat},
    operandSuffix is = operandSuffix js → is = js
  | [], [], _ => rfl
  | [], j :: js, h => by simp [operandSuffix] at h
  | i :: is, [], h => by simp [operandSuffix] at h
  | i :: is, j :: js, h => by
      have hsuffix : Nat.toDigits 10 i ++ operandSuffix is = Nat.toDigits 10 j ++ operandSuffix js :=
        (List.cons.inj h).2
      -- No digit is a separator, so both first indices end at the same place.
      have hdigits : Nat.toDigits 10 i = Nat.toDigits 10 j := by
        rw [← takeWhile_append_operandSuffix (separator_not_mem_toDigits i) is, hsuffix,
          takeWhile_append_operandSuffix (separator_not_mem_toDigits j) js]
      rw [hdigits] at hsuffix
      rw [toDigits_injective hdigits, operandSuffix_injective (List.append_cancel_left hsuffix)]

/-- Synthesized names tell their indices. -/
theorem foldl_operandName_inj {d : String} {is js : List Nat} :
    is.foldl operandName d = js.foldl operandName d ↔ is = js := by
  constructor
  · intro h
    have htext := congrArg String.toList h
    rw [foldl_operandName_toList, foldl_operandName_toList] at htext
    exact operandSuffix_injective (List.append_cancel_left htext)
  · rintro rfl
    rfl

/-! ## The name of a part -/

/-- The indices of the turns at intersections. -/
def meets (π : List Turn) : List Nat :=
  π.filterMap fun
    | .meet i => some i
    | .union _ => none

/-- A part is named after the intersections on the way to it. -/
theorem Expr.Expands.name_eq {d d' : String} {e x : Expr} {π : List Turn}
    (h : e.Expands d π d' x) : d' = (meets π).foldl operandName d := by
  induction h with
  | here => rfl
  | union _ _ ih => exact ih
  | meet _ _ _ ih => exact ih

/-- Parts of one permission share a name exactly if they pass the same operands
of intersections. -/
theorem Expr.Expands.name_eq_iff {d n n' : String} {e x x' : Expr} {π π' : List Turn}
    (h : e.Expands d π n x) (h' : e.Expands d π' n' x') : n = n' ↔ meets π = meets π' := by
  rw [h.name_eq, h'.name_eq]
  exact foldl_operandName_inj

/-- The part of a name before its first separator. -/
def baseName (name : String) : String := String.ofList (name.toList.takeWhile (· ≠ separator))

theorem separator_not_mem {name : String} (h : isReserved name = false) :
    separator ∉ name.toList := by
  simpa [isReserved] using h

/-- The name of a part starts with the permission. -/
theorem Expr.Expands.baseName_eq {d d' : String} {e x : Expr} {π : List Turn}
    (h : e.Expands d π d' x) (hd : isReserved d = false) : baseName d' = d := by
  rw [baseName, h.name_eq, foldl_operandName_toList, takeWhile_append_operandSuffix (separator_not_mem hd),
    String.ofList_toList]

theorem isReserved_operandName (d : String) (i : Nat) : isReserved (operandName d i) = true := by
  simp [isReserved, operandName_toList]

/-! ## The operands of a permission -/

/-- The part at a position is a composite operand of an intersection, derived
under the name `n`. -/
def Expr.IsOperandAt (e : Expr) (d : String) (π : List Turn) (n : String) (x : Expr) : Prop :=
  e.Expands d π n x ∧ ∃ i, π.getLast? = some (.meet i)

/-- The positions of an operand and of the operands inside it, seen from its
intersection.  A name has none. -/
def Expr.positionsBelow (i : Nat) (inside : List (List Turn)) : Expr → List (List Turn)
  | .name _ => []
  | _ => [.meet i] :: inside.map (.meet i :: ·)

mutual

/-- The positions of the composite operands of intersections, from left to
right. -/
def Expr.operandPositions : Expr → List (List Turn)
  | .union es => Expr.unionPositions 0 es
  | .intersection [e, f] =>
      e.positionsBelow 0 e.operandPositions ++ f.positionsBelow 1 f.operandPositions
  | _ => []
termination_by structural e => e

/-- The positions in the operands of a union, the first of which has the index
`i`. -/
def Expr.unionPositions (i : Nat) : List Expr → List (List Turn)
  | [] => []
  | e :: es => e.operandPositions.map (.union i :: ·) ++ Expr.unionPositions (i + 1) es
termination_by structural es => es

end

theorem Expr.positionsBelow_of_isComposite {e : Expr} (h : e.IsComposite) (i : Nat)
    (inside : List (List Turn)) :
    e.positionsBelow i inside = [.meet i] :: inside.map (.meet i :: ·) := by
  cases e with
  | name source => exact absurd h id
  | arrow base target => rfl
  | union es => rfl
  | intersection es => rfl
  | exclusion e f => rfl

/-- The positions below an operand lead through it, if it is composite. -/
theorem Expr.mem_positionsBelow {e : Expr} {i : Nat} {inside : List (List Turn)} {π : List Turn} :
    π ∈ e.positionsBelow i inside ↔
      e.IsComposite ∧ ∃ π', π = .meet i :: π' ∧ (π' = [] ∨ π' ∈ inside) := by
  rcases e.isComposite_or_name with h | ⟨source, rfl⟩
  · rw [Expr.positionsBelow_of_isComposite h, List.mem_cons, List.mem_map]
    constructor
    · rintro (rfl | ⟨π', hπ', rfl⟩)
      · exact ⟨h, [], rfl, Or.inl rfl⟩
      · exact ⟨h, π', rfl, Or.inr hπ'⟩
    · rintro ⟨_, π', rfl, rfl | hπ'⟩
      · exact Or.inl rfl
      · exact Or.inr ⟨π', hπ', rfl⟩
  · simp [Expr.positionsBelow, Expr.IsComposite]

theorem Expr.mem_unionPositions {π : List Turn} : ∀ {es : List Expr} {i : Nat},
    π ∈ Expr.unionPositions i es ↔
      ∃ (j : Nat) (e : Expr) (π' : List Turn), es[j]? = some e ∧ π = .union (i + j) :: π' ∧
        π' ∈ e.operandPositions
  | [], i => by simp [Expr.unionPositions]
  | e :: es, i => by
      rw [Expr.unionPositions, List.mem_append, List.mem_map, Expr.mem_unionPositions]
      constructor
      · rintro (⟨π', hπ', rfl⟩ | ⟨j, f, π', hj, rfl, hπ'⟩)
        · exact ⟨0, e, π', rfl, rfl, hπ'⟩
        · exact ⟨j + 1, f, π', hj, by rw [Nat.add_right_comm, Nat.add_assoc], hπ'⟩
      · rintro ⟨j, f, π', hj, rfl, hπ'⟩
        cases j with
        | zero =>
            cases hj
            exact Or.inl ⟨π', hπ', rfl⟩
        | succ j => exact Or.inr ⟨j, f, π', hj, by rw [Nat.add_right_comm, Nat.add_assoc], hπ'⟩

/-- A last turn at an intersection is the only turn or the last of the others. -/
theorem getLast?_cons_eq_meet {turn : Turn} {π : List Turn} {i : Nat}
    (h : (turn :: π).getLast? = some (.meet i)) :
    (π = [] ∧ turn = .meet i) ∨ π.getLast? = some (.meet i) := by
  cases π with
  | nil => exact Or.inl ⟨rfl, by simpa using h⟩
  | cons next rest => exact Or.inr (by simpa using h)

/-- Where a way ends with a turn at an intersection, an operand is listed. -/
theorem Expr.Expands.mem_operandPositions {d n : String} {e x : Expr} {π : List Turn}
    (h : e.Expands d π n x) (hlast : ∃ i, π.getLast? = some (.meet i)) :
    π ∈ e.operandPositions := by
  induction h with
  | here =>
      obtain ⟨i, hi⟩ := hlast
      cases hi
  | @union d n es j f x π hj _ ih =>
      obtain ⟨i, hi⟩ := hlast
      rw [Expr.operandPositions, Expr.mem_unionPositions]
      refine ⟨j, f, π, hj, by rw [Nat.zero_add], ?_⟩
      rcases getLast?_cons_eq_meet hi with ⟨_, hturn⟩ | hi
      · cases hturn
      · exact ih ⟨i, hi⟩
  | @meet d n e f g x j π hj hg _ ih =>
      obtain ⟨i, hi⟩ := hlast
      have hbelow : .meet j :: π ∈ g.positionsBelow j g.operandPositions := by
        rw [Expr.mem_positionsBelow]
        refine ⟨hg, π, rfl, ?_⟩
        rcases getLast?_cons_eq_meet hi with ⟨hπ, _⟩ | hi
        · exact Or.inl hπ
        · exact Or.inr (ih ⟨i, hi⟩)
      rw [Expr.operandPositions, List.mem_append]
      rcases pair_getElem?_eq_some hj with ⟨rfl, rfl⟩ | ⟨rfl, rfl⟩
      · exact Or.inl hbelow
      · exact Or.inr hbelow

theorem Expr.IsOperandAt.union {d n : String} {es : List Expr} {i : Nat} {e x : Expr}
    {π : List Turn} (hi : es[i]? = some e) (h : e.IsOperandAt d π n x) :
    (Expr.union es).IsOperandAt d (.union i :: π) n x := by
  obtain ⟨hx, j, hj⟩ := h
  exact ⟨.union hi hx, j, by rw [List.getLast?_cons, hj]; rfl⟩

theorem Expr.IsOperandAt.meet {d n : String} {e f g x : Expr} {i : Nat} {π : List Turn}
    (hi : [e, f][i]? = some g) (hg : g.IsComposite)
    (h : g.IsOperandAt (operandName d i) π n x) :
    (Expr.intersection [e, f]).IsOperandAt d (.meet i :: π) n x := by
  obtain ⟨hx, j, hj⟩ := h
  exact ⟨.meet hi hg hx, j, by rw [List.getLast?_cons, hj]; rfl⟩

mutual

/-- An operand stands at every position listed. -/
theorem Expr.exists_isOperandAt : ∀ {e : Expr} (d : String) {π : List Turn},
    π ∈ e.operandPositions → ∃ n x, e.IsOperandAt d π n x
  | .union es, d, π, h => by
      rw [Expr.operandPositions, Expr.mem_unionPositions] at h
      obtain ⟨j, e, π', hj, rfl, hπ'⟩ := h
      obtain ⟨n, x, hx⟩ := Expr.exists_isOperandAt_operand es d hj hπ'
      rw [Nat.zero_add]
      exact ⟨n, x, hx.union hj⟩
  | .intersection [e, f], d, π, h => by
      rw [Expr.operandPositions, List.mem_append, Expr.mem_positionsBelow,
        Expr.mem_positionsBelow] at h
      rcases h with ⟨hcomp, π', rfl, rfl | hπ'⟩ | ⟨hcomp, π', rfl, rfl | hπ'⟩
      · exact ⟨operandName d 0, e, .meet rfl hcomp .here, 0, rfl⟩
      · obtain ⟨n, x, hx⟩ := Expr.exists_isOperandAt (operandName d 0) hπ'
        exact ⟨n, x, hx.meet rfl hcomp⟩
      · exact ⟨operandName d 1, f, .meet rfl hcomp .here, 1, rfl⟩
      · obtain ⟨n, x, hx⟩ := Expr.exists_isOperandAt (operandName d 1) hπ'
        exact ⟨n, x, hx.meet rfl hcomp⟩
  | .name _, _, _, h => by cases h
  | .arrow _ _, _, _, h => by cases h
  | .intersection [], _, _, h => by cases h
  | .intersection [_], _, _, h => by cases h
  | .intersection (_ :: _ :: _ :: _), _, _, h => by cases h
  | .exclusion _ _, _, _, h => by cases h
termination_by structural e => e

theorem Expr.exists_isOperandAt_operand : ∀ (es : List Expr) (d : String) {j : Nat} {e : Expr}
    {π : List Turn}, es[j]? = some e → π ∈ e.operandPositions → ∃ n x, e.IsOperandAt d π n x
  | e :: _, d, 0, _, _, hj, hπ => by
      cases hj
      exact Expr.exists_isOperandAt d hπ
  | _ :: es, d, _ + 1, _, _, hj, hπ => Expr.exists_isOperandAt_operand es d hj hπ
termination_by structural es => es

end

/-- The positions listed are those of operands. -/
theorem Expr.mem_operandPositions_iff {e : Expr} {d : String} {π : List Turn} :
    π ∈ e.operandPositions ↔ ∃ n x, e.IsOperandAt d π n x := by
  constructor
  · exact Expr.exists_isOperandAt d
  · rintro ⟨n, x, hx, hlast⟩
    exact hx.mem_operandPositions hlast

theorem Expr.nodup_positionsBelow {i : Nat} {inside : List (List Turn)} (h : inside.Nodup)
    (hne : [] ∉ inside) (e : Expr) : (e.positionsBelow i inside).Nodup := by
  rcases e.isComposite_or_name with hcomp | ⟨source, rfl⟩
  · rw [Expr.positionsBelow_of_isComposite hcomp, List.nodup_cons]
    constructor
    · simpa using hne
    · exact h.map (List.cons_injective)
  · exact List.nodup_nil

theorem Expr.nil_not_mem_operandPositions (e : Expr) : [] ∉ e.operandPositions := by
  intro h
  obtain ⟨n, x, _, i, hi⟩ := Expr.exists_isOperandAt "" h
  cases hi

mutual

/-- No position is listed twice. -/
theorem Expr.nodup_operandPositions : ∀ e : Expr, e.operandPositions.Nodup
  | .union es => Expr.nodup_unionPositions es 0
  | .intersection [e, f] => by
      have he := Expr.nodup_positionsBelow (i := 0) (Expr.nodup_operandPositions e)
        e.nil_not_mem_operandPositions e
      have hf := Expr.nodup_positionsBelow (i := 1) (Expr.nodup_operandPositions f)
        f.nil_not_mem_operandPositions f
      rw [Expr.operandPositions]
      refine he.append hf ?_
      intro π hπ hπ'
      obtain ⟨_, _, rfl, _⟩ := Expr.mem_positionsBelow.mp hπ
      obtain ⟨_, _, heq, _⟩ := Expr.mem_positionsBelow.mp hπ'
      cases heq
  | .name _ => List.nodup_nil
  | .arrow _ _ => List.nodup_nil
  | .intersection [] => List.nodup_nil
  | .intersection [_] => List.nodup_nil
  | .intersection (_ :: _ :: _ :: _) => List.nodup_nil
  | .exclusion _ _ => List.nodup_nil
termination_by structural e => e

theorem Expr.nodup_unionPositions : ∀ (es : List Expr) (i : Nat), (Expr.unionPositions i es).Nodup
  | [], _ => List.nodup_nil
  | e :: es, i => by
      rw [Expr.unionPositions]
      refine ((Expr.nodup_operandPositions e).map List.cons_injective).append
        (Expr.nodup_unionPositions es (i + 1)) ?_
      intro π hπ hπ'
      obtain ⟨_, _, rfl⟩ := List.mem_map.mp hπ
      obtain ⟨j, _, _, _, heq, _⟩ := Expr.mem_unionPositions.mp hπ'
      have hindex := Turn.union.inj (List.cons.inj heq).1
      omega
termination_by structural es => es

end

/-- A position leads to one part. -/
theorem Expr.Expands.unique {d n n' : String} {e x x' : Expr} {π : List Turn}
    (h : e.Expands d π n x) (h' : e.Expands d π n' x') : x = x' := by
  induction h with
  | here =>
      cases h'
      rfl
  | union hi _ ih =>
      cases h' with
      | union hi' h' =>
          cases hi.symm.trans hi'
          exact ih h'
  | meet hi _ _ ih =>
      cases h' with
      | meet hi' _ h' =>
          cases hi.symm.trans hi'
          exact ih h'

/-- If the turns at intersections alone tell the positions apart, then so do the
names. -/
theorem Expr.IsOperandAt.position_eq {d n : String} {e x x' : Expr} {π π' : List Turn}
    (hnodup : (e.operandPositions.map meets).Nodup) (h : e.IsOperandAt d π n x)
    (h' : e.IsOperandAt d π' n x') : π = π' := by
  have hπ := Expr.mem_operandPositions_iff.mpr ⟨n, x, h⟩
  have hπ' := Expr.mem_operandPositions_iff.mpr ⟨n, x', h'⟩
  have hmeets := (h.1.name_eq_iff h'.1).mp rfl
  exact List.inj_on_of_nodup_map hnodup hπ hπ' hmeets

/-- The composite operands of an expression have different names exactly if the
turns at intersections alone tell their positions apart. -/
theorem Expr.operandNames_distinct_iff (e : Expr) (d : String) :
    (∀ π π' n n' x x', e.IsOperandAt d π n x → e.IsOperandAt d π' n' x' → π ≠ π' → n ≠ n') ↔
      (e.operandPositions.map meets).Nodup := by
  constructor
  · intro h
    rw [List.nodup_map_iff_inj_on e.nodup_operandPositions]
    intro π hπ π' hπ' hmeets
    obtain ⟨n, x, hx⟩ := Expr.exists_isOperandAt d hπ
    obtain ⟨n', x', hx'⟩ := Expr.exists_isOperandAt d hπ'
    by_contra hne
    exact h π π' n n' x x' hx hx' hne ((hx.1.name_eq_iff hx'.1).mpr hmeets)
  · rintro hnodup π π' n _ x x' hx hx' hne rfl
    exact hne (hx.position_eq hnodup hx')

/-- Two intersections under a union. -/
def pairedExpr : Expr :=
  .union [.intersection [.name "a", .union [.name "b", .name "c"]],
    .intersection [.name "b", .union [.name "a", .name "c"]]]

/-- A schema with two intersections under a union, in the schema language. -/
def pairedText : String :=
  "definition u{relation a:u relation b:u relation c:u permission p=(a&(b+c))+(b&(a+c))}"

/-- The schema of the text. -/
def pairedSchema : Schema where
  types := [⟨"u", [⟨"a", [⟨"u", none⟩]⟩, ⟨"b", [⟨"u", none⟩]⟩, ⟨"c", [⟨"u", none⟩]⟩],
    [⟨"p", pairedExpr⟩]⟩]

/-- The second operands of two intersections under a union share their name. -/
theorem pairedExpr_shares_name : Language.readSchema pairedText = .ok pairedSchema ∧
    pairedSchema.problems {} = [] ∧ (∃ b, pairedSchema.compile = .ok b) ∧
    ∃ π π' n x x', pairedExpr.IsOperandAt "p" π n x ∧ pairedExpr.IsOperandAt "p" π' n x' ∧
      π ≠ π' ∧ x ≠ x' := by
  refine ⟨by cbv, by decide, ⟨_, by cbv⟩, [.union 0, .meet 1], [.union 1, .meet 1],
    operandName "p" 1, .union [.name "b", .name "c"], .union [.name "a", .name "c"], ?_, ?_,
    by decide, by decide⟩
  · exact ⟨.union rfl (.meet rfl trivial .here), 1, rfl⟩
  · exact ⟨.union rfl (.meet rfl trivial .here), 1, rfl⟩

end Rebac
