import Rebac.Proofs.Origins
import Rebac.Proofs.RestrictionRows

/-!
# Telling joins from conjunctions

What the rules of a compiled rule base are meant as can be read off to some extent.  A
rule whose types differ is a join.  A rule whose types agree is a conjunction, unless it
can be one of the rules of an arrow.  Then the rules around it are those that its
relation asks for, one for each type of subject.

If the relation accepts a type other than that of the rule, the arrow can be told from an
intersection: the rules for foreign types come from arrows alone, and there is only one
way to take the rules apart.  An arrow begins where the rules for foreign types of earlier
arrows are complete (`Pieces.join_of_fitsAt`).  If the relation accepts the type of the
rule only, the arrow gives the same rule several times, and nothing can be seen.
-/

namespace Rebac

/-! ## Reading rules -/

/-- The other rule differs in its first type at most. -/
def BinaryRule.Like (r r' : BinaryRule) : Prop := r' = { r with firstType := r'.firstType }

instance (r r' : BinaryRule) : Decidable (r.Like r') :=
  inferInstanceAs (Decidable (r' = { r with firstType := r'.firstType }))

/-- The other rule leads to another type than that of the rule. -/
def BinaryRule.foreign (r r' : BinaryRule) : Bool := r.Like r' ∧ r'.firstType ≠ r.secondType

/-- The rules of an arrow like `r` can begin at the position, if its relation accepts
subjects of the given types: they are all there, and those of earlier arrows for foreign
types are complete. -/
def BinaryRule.FitsAt (r : BinaryRule) (types : List String) (rules : List BinaryRule) (j : Nat) :
    Prop :=
  r.spread types <+: rules.drop j ∧
    types.countP (· ≠ r.secondType) ∣ (rules.take j).countP r.foreign

instance (r : BinaryRule) (types : List String) (rules : List BinaryRule) (j : Nat) :
    Decidable (r.FitsAt types rules j) :=
  inferInstanceAs (Decidable (_ ∧ _))

/-- The rule `r` at a position can be one of the rules of an arrow. -/
def BinaryRule.InArrow (r : BinaryRule) (types : List String) (rules : List BinaryRule)
    (i : Nat) : Prop :=
  isReserved r.first = false ∧
    ∃ j ∈ List.range (i + 1), i < j + types.length ∧ r.FitsAt types rules j

instance (r : BinaryRule) (types : List String) (rules : List BinaryRule) (i : Nat) :
    Decidable (r.InArrow types rules i) :=
  inferInstanceAs (Decidable (_ ∧ _))

/-- What the rule at a position must be meant as, if the rules show it, where the relation
that it names accepts subjects of the given types. -/
def Reading.shown? (types : List String) (rules : List BinaryRule) (i : Nat) : Option Reading :=
  match rules[i]? with
  | none => none
  | some r =>
      if r.firstType ≠ r.secondType then some .join
      else if ¬ r.InArrow types rules i then some .conjunction
      else if ∀ u ∈ types, u = r.secondType then none
      else some .join

/-! ## Rules that are alike -/

section Like

variable {r r' : BinaryRule} {types : List String}

theorem BinaryRule.Like.base_eq (h : r.Like r') : r'.base = r.base := by
  rw [h]
  rfl

theorem BinaryRule.Like.spread_eq (h : r.Like r') (types : List String) :
    r'.spread types = r.spread types := by
  rw [h]
  rfl

theorem BinaryRule.mem_spread : r' ∈ r.spread types ↔ r.Like r' ∧ r'.firstType ∈ types := by
  rw [BinaryRule.spread, List.mem_map]
  constructor
  · rintro ⟨u, hu, rfl⟩
    exact ⟨rfl, hu⟩
  · rintro ⟨h, hu⟩
    exact ⟨_, hu, h.symm⟩

theorem BinaryRule.Like.symm (h : r.Like r') : r'.Like r := by
  rw [BinaryRule.Like, h]

theorem BinaryRule.Like.trans {r'' : BinaryRule} (h : r.Like r') (h' : r'.Like r'') :
    r.Like r'' := by
  rw [BinaryRule.Like, h', h]

theorem BinaryRule.length_spread (r : BinaryRule) (types : List String) :
    (r.spread types).length = types.length :=
  List.length_map _

theorem BinaryRule.getElem?_spread (r : BinaryRule) (types : List String) (i : Nat) :
    (r.spread types)[i]? = types[i]?.map fun u => { r with firstType := u } :=
  List.getElem?_map

/-- Of the rules of an arrow those for foreign types are foreign. -/
theorem BinaryRule.countP_foreign_spread (r : BinaryRule) (types : List String) :
    (r.spread types).countP r.foreign = types.countP (· ≠ r.secondType) := by
  rw [BinaryRule.spread, List.countP_map]
  congr 1
  funext u
  simp [BinaryRule.foreign, BinaryRule.Like]

end Like

/-! ## Rules in pieces -/

section Pieces

variable {accepted : Member → List String} {os : List (BinaryRule × Reading)} {r : BinaryRule}

theorem Pieces.types_eq (h : Pieces accepted os) (hr : (r, .conjunction) ∈ os) :
    r.firstType = r.secondType := by
  induction h with
  | nil => cases hr
  | arrow _ _ ih =>
      rcases List.mem_append.mp hr with hr | hr
      · obtain ⟨_, _, heq⟩ := List.mem_map.mp hr
        cases heq
      · exact ih hr
  | meet htypes _ ih =>
      rcases List.mem_cons.mp hr with hr | hr
      · cases hr
        exact htypes
      · exact ih hr

/-- A join is one of the rules of an arrow. -/
theorem Pieces.mem_accepted (h : Pieces accepted os) (hr : (r, .join) ∈ os) :
    isReserved r.first = false ∧ r.firstType ∈ accepted r.base := by
  induction h with
  | nil => cases hr
  | arrow hfirst _ ih =>
      rcases List.mem_append.mp hr with hr | hr
      · obtain ⟨r', hr', heq⟩ := List.mem_map.mp hr
        cases heq
        obtain ⟨hlike, htype⟩ := BinaryRule.mem_spread.mp hr'
        refine ⟨?_, hlike.base_eq ▸ htype⟩
        rw [hlike]
        exact hfirst
      · exact ih hr
  | meet _ _ ih =>
      rcases List.mem_cons.mp hr with hr | hr
      · cases hr
      · exact ih hr

/-- Rules of an intersection are not foreign. -/
theorem BinaryRule.not_foreign {r' : BinaryRule} (h : r'.firstType = r'.secondType) :
    r.foreign r' = false := by
  rw [BinaryRule.foreign, decide_eq_false_iff_not]
  rintro ⟨hlike, hne⟩
  apply hne
  rw [h, hlike]

/-- Each arrow completes its rules for foreign types. -/
theorem dvd_countP_spread (r r' : BinaryRule) :
    (accepted r.base).countP (· ≠ r.secondType) ∣
      (r'.spread (accepted r'.base)).countP r.foreign := by
  by_cases h : r.Like r'
  · refine ⟨1, ?_⟩
    rw [h.base_eq, h.spread_eq, BinaryRule.countP_foreign_spread, Nat.mul_one]
  · have hzero : (r'.spread (accepted r'.base)).countP r.foreign = 0 := by
      rw [List.countP_eq_zero]
      intro r'' hr''
      rw [BinaryRule.foreign, decide_eq_true_eq]
      exact fun hforeign => h (hforeign.1.trans (BinaryRule.mem_spread.mp hr'').1.symm)
    rw [hzero]
    exact Nat.dvd_zero _

/-- A join can be one of the rules of an arrow. -/
theorem Pieces.exists_fitsAt (h : Pieces accepted os) {i : Nat} (hi : os[i]? = some (r, .join)) :
    ∃ j ≤ i, i < j + (accepted r.base).length ∧
      r.FitsAt (accepted r.base) (os.map Prod.fst) j := by
  induction h generalizing i with
  | nil => cases hi
  | @arrow r' os hfirst _ ih =>
      rw [List.map_append, List.map_map, Function.comp_def, List.map_id']
      by_cases hlt : i < (r'.spread (accepted r'.base)).length
      · rw [List.getElem?_append_left (by simpa using hlt), List.getElem?_map] at hi
        obtain ⟨r'', hr'', heq⟩ := Option.map_eq_some_iff.mp hi
        cases heq
        have hlike := (BinaryRule.mem_spread.mp (List.mem_of_getElem? hr'')).1
        rw [← hlike.base_eq, ← hlike.spread_eq] at hlt ⊢
        refine ⟨0, Nat.zero_le i, by simpa [BinaryRule.length_spread] using hlt, ?_, ?_⟩
        · exact List.prefix_append _ _
        · exact Nat.dvd_zero _
      · rw [List.getElem?_append_right (by simpa using hlt)] at hi
        obtain ⟨j, hji, hij, hprefix, hdvd⟩ := ih hi
        simp only [List.length_map] at hji hij
        refine ⟨(r'.spread (accepted r'.base)).length + j, by omega, by omega, ?_, ?_⟩
        · rwa [List.drop_append, List.drop_of_length_le (by omega), List.nil_append,
            Nat.add_sub_cancel_left]
        · rw [List.take_append, List.take_of_length_le (by omega), Nat.add_sub_cancel_left,
            List.countP_append]
          exact Nat.dvd_add (dvd_countP_spread r r') hdvd
  | @meet r' os htypes _ ih =>
      cases i with
      | zero => cases hi
      | succ i =>
          obtain ⟨j, hji, hij, hprefix, hdvd⟩ := ih hi
          refine ⟨j + 1, by omega, by omega, hprefix, ?_⟩
          rw [List.map_cons, List.take_succ_cons, List.countP_cons_of_neg]
          · exact hdvd
          · simp [BinaryRule.not_foreign htypes]

/-- The rules of a fitting arrow are where they should be. -/
theorem BinaryRule.FitsAt.getElem? {types : List String} {rules : List BinaryRule} {j : Nat}
    (h : r.FitsAt types rules j) {l : Nat} {u : String} (hl : types[l]? = some u) :
    rules[j + l]? = some { r with firstType := u } := by
  obtain ⟨rest, hrest⟩ := h.1
  have hlt : l < (r.spread types).length := by
    rw [BinaryRule.length_spread]
    exact (List.getElem?_eq_some_iff.mp hl).1
  rw [← List.getElem?_drop, ← hrest, List.getElem?_append_left hlt, BinaryRule.getElem?_spread, hl]
  rfl

/-- A rule for a foreign type has the rules of its arrow for earlier types before it. -/
theorem Pieces.findIdx_le (h : Pieces accepted os) {q : Nat} {r' : BinaryRule}
    (hq : (os.map Prod.fst)[q]? = some r') (hforeign : r.foreign r' = true) :
    (accepted r.base).findIdx (· ≠ r.secondType) ≤ q := by
  induction h generalizing q with
  | nil => cases hq
  | @arrow r₀ os _ _ ih =>
      rw [List.map_append, List.map_map, Function.comp_def, List.map_id'] at hq
      by_cases hlt : q < (r₀.spread (accepted r₀.base)).length
      · rw [List.getElem?_append_left hlt] at hq
        obtain ⟨hlike, hne⟩ := of_decide_eq_true hforeign
        have hlike₀ := hlike.trans (BinaryRule.mem_spread.mp (List.mem_of_getElem? hq)).1.symm
        rw [hlike₀.base_eq, BinaryRule.getElem?_spread] at hq
        obtain ⟨u, hu, rfl⟩ := Option.map_eq_some_iff.mp hq
        obtain ⟨hbound, hu⟩ := List.getElem?_eq_some_iff.mp hu
        by_contra hbefore
        have hown := List.not_of_lt_findIdx (Nat.lt_of_not_le hbefore)
        simp only [hu, ne_eq, decide_not, Bool.not_eq_false', decide_eq_true_eq] at hown
        exact hne hown
      · rw [List.getElem?_append_right (Nat.le_of_not_lt hlt)] at hq
        exact Nat.le_trans (ih hq) (Nat.sub_le _ _)
  | @meet r₀ os htypes _ ih =>
      cases q with
      | zero =>
          cases hq
          rw [BinaryRule.not_foreign htypes] at hforeign
          cases hforeign
      | succ q => exact Nat.le_succ_of_le (ih hq)

/-- The first foreign type of a relation that accepts one. -/
theorem exists_findIdx {type : String} {types : List String} (h : ∃ u ∈ types, u ≠ type) :
    ∃ f, types[types.findIdx (· ≠ type)]? = some f ∧ f ≠ type ∧
      ∀ l < types.findIdx (· ≠ type), types[l]? = some type := by
  have hlt : types.findIdx (· ≠ type) < types.length :=
    List.findIdx_lt_length_of_exists (by simpa using h)
  refine ⟨_, List.getElem?_eq_getElem hlt, by simpa using List.findIdx_getElem (w := hlt), ?_⟩
  intro l hl
  rw [List.getElem?_eq_getElem (Nat.lt_trans hl hlt)]
  simpa using List.not_of_lt_findIdx hl

/-- No arrow begins inside the rules of an arrow like it. -/
theorem not_fitsAt_inside {types : List String} {rest : List BinaryRule} {j : Nat}
    (hforeign : ∃ u ∈ types, u ≠ r.secondType) (hpos : 0 < j) (hlt : j < types.length)
    (hrest : ∀ q r', rest[q]? = some r' → r.foreign r' = true →
      types.findIdx (· ≠ r.secondType) ≤ q) :
    ¬ r.FitsAt types (r.spread types ++ rest) j := by
  intro hfit
  obtain ⟨f, hf, hne, hown⟩ := exists_findIdx hforeign
  generalize types.findIdx (· ≠ r.secondType) = a at hf hown hrest
  have hin : ∀ {l : Nat}, l < types.length →
      (r.spread types ++ rest)[l]? = types[l]?.map fun u => { r with firstType := u } := by
    intro l hl
    rw [List.getElem?_append_left (by rwa [BinaryRule.length_spread]), BinaryRule.getElem?_spread]
  have halt := (List.getElem?_eq_some_iff.mp hf).1
  by_cases hja : j ≤ a
  · -- The first foreign rule would stand before its place in the second arrow.
    have hsecond := hfit.getElem? (hown (a - j) (by omega))
    rw [Nat.add_sub_cancel' hja, hin halt, hf] at hsecond
    cases hsecond
    exact hne rfl
  · -- The rules for foreign types are complete, so all of them stand before.
    have hlater : ∀ u ∈ types.drop j, u = r.secondType := by
      have hdvd := hfit.2
      have htake : (r.spread types ++ rest).take j = r.spread (types.take j) := by
        rw [List.take_append_of_le_length (by rw [BinaryRule.length_spread]; omega),
          BinaryRule.spread, BinaryRule.spread, List.map_take]
      rw [htake, BinaryRule.countP_foreign_spread] at hdvd
      have hpos : 0 < (types.take j).countP (· ≠ r.secondType) := by
        refine List.countP_pos_iff.mpr ⟨f, ?_, by simpa using hne⟩
        exact List.mem_of_getElem? (by rwa [List.getElem?_take_of_lt (Nat.lt_of_not_le hja)])
      have hle := Nat.le_of_dvd hpos hdvd
      have hsplit : types.countP (· ≠ r.secondType) = (types.take j).countP (· ≠ r.secondType) +
          (types.drop j).countP (· ≠ r.secondType) := by
        rw [← List.countP_append, List.take_append_drop]
      have hzero : (types.drop j).countP (· ≠ r.secondType) = 0 := by omega
      simpa using List.countP_eq_zero.mp hzero
    have hsecond := hfit.getElem? hf
    by_cases hend : j + a < types.length
    · rw [hin hend] at hsecond
      obtain ⟨u, hu, heq⟩ := Option.map_eq_some_iff.mp hsecond
      cases heq
      exact hne (hlater f (List.mem_of_getElem? (by rwa [List.getElem?_drop])))
    · rw [List.getElem?_append_right (by rw [BinaryRule.length_spread]; omega),
        BinaryRule.length_spread] at hsecond
      have hle := hrest _ _ hsecond (by simpa [BinaryRule.foreign, BinaryRule.Like] using hne)
      omega

/-- If the relation accepts a foreign type, a fitting arrow is there: no other way to take
the rules apart is left. -/
theorem Pieces.join_of_fitsAt (h : Pieces accepted os)
    (hforeign : ∃ u ∈ accepted r.base, u ≠ r.secondType) {j : Nat}
    (hfit : r.FitsAt (accepted r.base) (os.map Prod.fst) j) {i : Nat} (hji : j ≤ i)
    (hij : i < j + (accepted r.base).length) : ∃ r', os[i]? = some (r', .join) := by
  obtain ⟨f, hf, hne, hown⟩ := exists_findIdx hforeign
  induction h generalizing i j with
  | nil =>
      have hfirst := hfit.getElem? hf
      cases hfirst
  | @arrow r' os _ hos ih =>
      rw [List.map_append, List.map_map, Function.comp_def, List.map_id'] at hfit
      by_cases hlt : j < (r'.spread (accepted r'.base)).length
      · -- The two arrows are alike, so they begin at the same place.
        have hlike : r.Like r' := by
          have hfirst := hfit.getElem? (List.getElem?_eq_getElem (i := 0) (by omega))
          rw [Nat.add_zero, List.getElem?_append_left hlt] at hfirst
          exact (BinaryRule.mem_spread.mp (List.mem_of_getElem? hfirst)).1.symm
        rw [hlike.base_eq, hlike.spread_eq] at hfit ⊢
        rw [hlike.base_eq, BinaryRule.length_spread] at hlt
        obtain rfl : j = 0 := by
          by_contra hpos
          exact not_fitsAt_inside hforeign (Nat.pos_of_ne_zero hpos) hlt
            (fun q r'' hq hr'' => hos.findIdx_le hq hr'') hfit
        have hi : i < (r.spread (accepted r.base)).length := by
          rw [BinaryRule.length_spread]
          omega
        refine ⟨(r.spread (accepted r.base)).get ⟨i, hi⟩, ?_⟩
        rw [List.getElem?_append_left (by simpa using hi), List.getElem?_map,
          List.getElem?_eq_getElem hi]
        rfl
      · rw [List.getElem?_append_right (by simp only [List.length_map]; omega), List.length_map]
        refine ih (j := j - (r'.spread (accepted r'.base)).length) ⟨?_, ?_⟩ (by omega) (by omega)
        · have hprefix := hfit.1
          rwa [List.drop_append, List.drop_of_length_le (by omega), List.nil_append] at hprefix
        · have hdvd := hfit.2
          rw [List.take_append, List.take_of_length_le (by omega), List.countP_append] at hdvd
          exact (Nat.dvd_add_right (dvd_countP_spread r r')).mp hdvd
  | @meet r' os htypes hos ih =>
      cases j with
      | zero =>
          -- The first foreign rule would stand too early in what follows.
          have hfirst := hfit.getElem? hf
          rw [Nat.zero_add, List.map_cons] at hfirst
          have hforeign' : r.foreign { r with firstType := f } = true := by
            simpa [BinaryRule.foreign, BinaryRule.Like] using hne
          cases ha : (accepted r.base).findIdx (· ≠ r.secondType) with
          | zero =>
              rw [ha] at hfirst
              cases hfirst
              rw [BinaryRule.not_foreign htypes] at hforeign'
              cases hforeign'
          | succ a =>
              rw [ha] at hfirst
              have hle := hos.findIdx_le hfirst hforeign'
              omega
      | succ j =>
          obtain ⟨i, rfl⟩ : ∃ i', i = i' + 1 := ⟨i - 1, by omega⟩
          refine ih (j := j) ⟨hfit.1, ?_⟩ (by omega) (by omega)
          have hdvd := hfit.2
          rwa [List.map_cons, List.take_succ_cons,
            List.countP_cons_of_neg (by simp [BinaryRule.not_foreign htypes])] at hdvd

/-- What the rules show is right. -/
theorem Pieces.eq_of_shown? (h : Pieces accepted os) {i : Nat} {k k' : Reading}
    (hi : os[i]? = some (r, k))
    (hk : Reading.shown? (accepted r.base) (os.map Prod.fst) i = some k') : k = k' := by
  have hmem := List.mem_of_getElem? hi
  have hr : (os.map Prod.fst)[i]? = some r := by
    rw [List.getElem?_map, hi]
    rfl
  simp only [Reading.shown?, hr] at hk
  split at hk
  · rename_i htypes
    cases k with
    | join => exact Option.some.inj hk
    | conjunction => exact absurd (h.types_eq hmem) htypes
  · split at hk
    · rename_i hout
      cases k with
      | join =>
          obtain ⟨j, hji, hij, hfit⟩ := h.exists_fitsAt hi
          exact absurd ⟨(h.mem_accepted hmem).1, j, List.mem_range.mpr (by omega), hij, hfit⟩ hout
      | conjunction => exact Option.some.inj hk
    · rename_i hin
      split at hk
      · cases hk
      · rename_i hown
        obtain ⟨_, j, hj, hij, hfit⟩ := not_not.mp hin
        have hforeign : ∃ u ∈ accepted r.base, u ≠ r.secondType := by simpa using hown
        obtain ⟨r', hr'⟩ := h.join_of_fitsAt hforeign hfit
          (Nat.lt_succ_iff.mp (List.mem_range.mp hj)) hij
        cases hi.symm.trans hr'
        exact Option.some.inj hk

end Pieces

/-- Where the rules show nothing, the rule stands among equal rules, as many as the relation
accepts types. -/
theorem Reading.of_shown?_eq_none {types : List String} {rules : List BinaryRule} {i : Nat}
    {r : BinaryRule} (hr : rules[i]? = some r) (h : Reading.shown? types rules i = none) :
    r.firstType = r.secondType ∧ isReserved r.first = false ∧
      (∀ u ∈ types, u = r.secondType) ∧
      ∃ before after, rules = before ++ List.replicate types.length r ++ after ∧
        before.length ≤ i ∧ i < before.length + types.length := by
  simp only [Reading.shown?, hr] at h
  split at h
  · cases h
  · rename_i htypes
    split at h
    · cases h
    · rename_i hin
      split at h
      · rename_i hown
        obtain ⟨hfirst, j, hj, hij, ⟨after, hafter⟩, _⟩ := not_not.mp hin
        have hspread : r.spread types = List.replicate types.length r := by
          refine List.eq_replicate_iff.mpr ⟨r.length_spread types, fun r' hr' => ?_⟩
          obtain ⟨hlike, htype⟩ := BinaryRule.mem_spread.mp hr'
          rw [hlike, hown _ htype]
          exact congrArg (BinaryRule.mk · r.first r.secondType r.second r.derived)
            (not_not.mp htypes).symm
        have hlength : (rules.take j).length = j := by
          rw [List.length_take, Nat.min_eq_left]
          have := (List.getElem?_eq_some_iff.mp hr).1
          have := List.mem_range.mp hj
          omega
        refine ⟨not_not.mp htypes, hfirst, hown, rules.take j, after, ?_, ?_, ?_⟩
        · rw [← hspread, List.append_assoc, hafter, List.take_append_drop]
        · rw [hlength]
          exact Nat.lt_succ_iff.mp (List.mem_range.mp hj)
        · rwa [hlength]
      · cases h

/-! ## What the restriction table shows -/

/-- The types of subjects that the restriction table lists for a member. -/
def RuleBase.accepted (b : RuleBase) (m : Member) : List String :=
  (b.restrictions.filter (·.member = m)).map Restriction.subjectType

/-- What the rule at a position must be meant as, if the rule base shows it. -/
def RuleBase.reading? (b : RuleBase) (i : Nat) : Option Reading :=
  match b.binary[i]? with
  | none => none
  | some r => Reading.shown? (b.accepted r.base) b.binary i

/-- The types account for the rules that lead from a member to other types. -/
def RuleBase.Admits (b : RuleBase) (m : Member) (types : List String) : Prop :=
  ∀ r ∈ b.binary, r.base = m → r.firstType ≠ r.secondType → r.firstType ∈ types

/-- No two types have the same name, nor two relations of a type. -/
structure Schema.DistinctRelations (s : Schema) : Prop where
  types : (s.types.map (·.name)).Nodup
  relations : ∀ t ∈ s.types, (t.relations.map (·.name)).Nodup

section Table

variable {s : Schema}

/-- The rows of a member come from the relations of its name, in order of declaration. -/
theorem Schema.accepted_ruleBase (s : Schema) (order : List Member) (m : Member) :
    (s.ruleBase order).accepted m = (s.types.filter (·.name == m.type)).flatMap fun t =>
      (t.relations.filter (·.name == m.name)).flatMap fun r => r.subjects.map Subject.type := by
  have htype : ∀ t : ObjectType, ∀ row ∈ t.relations.flatMap (Relation.rows t.name),
      decide (row.member = m) = true → (t.name == m.type) = true := by
    intro t row hrow hm
    obtain ⟨r, _, hrow⟩ := List.mem_flatMap.mp hrow
    rw [beq_iff_eq, ← of_decide_eq_true hm, Relation.member_of_mem_rows hrow]
  have hrows : ∀ t : ObjectType, (t.name == m.type) = true → ∀ r : Relation,
      (r.name == m.name) = true →
      ((r.rows t.name).filter (·.member = m)).map Restriction.subjectType =
        r.subjects.map Subject.type := by
    intro t ht r hr
    rw [List.filter_eq_self.mpr, Relation.rows, List.map_map]
    · rfl
    · intro row hrow
      rw [Relation.member_of_mem_rows hrow, beq_iff_eq.mp ht, beq_iff_eq.mp hr]
      exact decide_eq_true rfl
  rw [RuleBase.accepted, Schema.ruleBase, Schema.filter_restrictions, Schema.declaredRows,
    filter_flatMap_filter _ htype, List.map_flatMap]
  refine List.flatMap_congr fun t ht => ?_
  rw [ObjectType.filter_rows, List.map_flatMap]
  exact List.flatMap_congr fun r hr =>
    hrows t (List.mem_filter.mp ht).2 r (List.mem_filter.mp hr).2

/-- What a relation accepts is listed first among its rows. -/
theorem Schema.accepted_prefix (s : Schema) (order : List Member) (m : Member) :
    s.accepted m <+: (s.ruleBase order).accepted m := by
  rw [Schema.accepted]
  split
  · rename_i r hfind
    obtain ⟨t, htype, hrel⟩ := Schema.find_eq_relation_iff.mp hfind
    rw [Schema.type?, ← List.head?_filter, List.head?_eq_some_iff] at htype
    rw [ObjectType.relation?, ← List.head?_filter, List.head?_eq_some_iff] at hrel
    obtain ⟨ts, hts⟩ := htype
    obtain ⟨rs, hrs⟩ := hrel
    rw [Schema.accepted_ruleBase, hts, List.flatMap_cons, hrs, List.flatMap_cons, List.append_assoc]
    exact List.prefix_append _ _
  · exact List.nil_prefix

/-- Among distinct keys a lookup finds all that has the key. -/
theorem filter_eq_toList_find? {α : Type} {key : α → String} {l : List α}
    (h : (l.map key).Nodup) (k : String) :
    l.filter (key · == k) = (l.find? (key · == k)).toList := by
  induction l with
  | nil => rfl
  | cons a l ih =>
      obtain ⟨hnew, hrest⟩ := List.nodup_cons.mp h
      by_cases ha : key a = k
      · have hnone : l.filter (key · == k) = [] := by
          refine List.filter_eq_nil_iff.mpr fun b hb hbk => hnew ?_
          rw [ha, ← beq_iff_eq.mp hbk]
          exact List.mem_map_of_mem hb
        rw [List.filter_cons_of_pos (by simpa using ha), hnone,
          List.find?_cons_of_pos (by simpa using ha)]
        rfl
      · rw [List.filter_cons_of_neg (by simpa using ha), List.find?_cons_of_neg (by simpa using ha),
          ih hrest]

/-- If no relation is declared twice, the rows show what a relation accepts. -/
theorem Schema.DistinctRelations.accepted_eq (h : s.DistinctRelations) (order : List Member)
    (m : Member) : (s.ruleBase order).accepted m = s.accepted m := by
  rw [Schema.accepted_ruleBase, filter_eq_toList_find? h.types, Schema.accepted, Schema.find,
    Schema.type?]
  cases htype : s.types.find? (·.name == m.type) with
  | none => rfl
  | some t =>
      have hrelations := h.relations t (List.mem_of_find?_eq_some htype)
      simp only [Option.toList_some, List.flatMap_singleton, filter_eq_toList_find? hrelations,
        ObjectType.relation?]
      cases t.relations.find? (·.name == m.name) with
      | none => cases t.permission? m.name <;> rfl
      | some r => simp

end Table

/-- What the relations of a schema accept accounts for the rules of an emitted schema. -/
theorem Schema.admits_accepted {s : Schema} {recursive : Bool} {order : List Member}
    (horder : s.emission recursive = .ok order) (m : Member) :
    (s.ruleBase order).Admits m (s.accepted m) := by
  have hpieces := Schema.pieces_origins horder
  rintro r hr rfl hne
  rw [← Schema.origins_map_fst] at hr
  obtain ⟨⟨r', k⟩, hmem, rfl⟩ := List.mem_map.mp hr
  cases k with
  | join => exact (hpieces.mem_accepted hmem).2
  | conjunction => exact absurd (hpieces.types_eq hmem) hne

/-- What the rules show of an emitted schema is right. -/
theorem Schema.readingAt_of_shown? {s : Schema} {recursive : Bool} {order : List Member}
    (horder : s.emission recursive = .ok order) {i : Nat} {r : BinaryRule}
    (hr : (s.ruleBase order).binary[i]? = some r) {k : Reading}
    (hk : Reading.shown? (s.accepted r.base) (s.ruleBase order).binary i = some k) :
    s.readingAt recursive i = some k := by
  obtain ⟨k', horigin, hreading⟩ := Schema.exists_readingAt horder hr
  rw [← Schema.origins_map_fst] at hk
  rw [hreading, (Schema.pieces_origins horder).eq_of_shown? horigin hk]

end Rebac
