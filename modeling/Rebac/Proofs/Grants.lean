import Rebac.Proofs.Meaning
import Rebac.Proofs.SynthesizedNames

/-!
# Compiled rules grant what the schema grants

Nothing is lost.  Wherever a part of a permission is satisfied, the name for which
the part is translated can be derived, by induction over the reasons for the
grant (`Schema.Emits.derives_of_grants`).  All that matters is that a rule may be
read as what it came from.

Nothing is added, if two kinds of confusion are excluded.  A rule is read by its
types, so no arrow may stay on its own type, where its rules would look like
conjunctions.  And within a permission a synthesized name must stand for one
operand only.  Then a derived name stands for a permission, or for an operand that
is satisfied (`Facts.Denotes`), by induction over the derivation.  The separator
keeps the two apart, since no declared name holds it.
-/

namespace Rebac

universe u v

variable {s : Schema} {order : List Member} {Object : Type u} {Holder : Type v}
  {facts : Facts s Object Holder}

/-! ## Nothing is lost -/

/-- Each rule may be read as what it came from. -/
structure Schema.Reads (s : Schema) (reads : BinaryRule → Reading → Prop) : Prop where
  hop : ∀ {t d e r}, s.Expands t d e → e.Takes t d (.hop r) → reads r .join
  meet : ∀ {t d e r}, s.Expands t d e → e.Takes t d (.meet r) → reads r .conjunction

/-- Every schema can be read leniently. -/
theorem Schema.reads_lenient (s : Schema) : s.Reads Reading.lenient where
  hop _ _ := trivial
  meet _ htakes := by
    cases htakes
    rfl

section Derive

variable {reads : BinaryRule → Reading → Prop} {t : ObjectType} {d : String} {o : Object}
  {x : Holder}

theorem Schema.Emits.derives_name (h : s.Emits order) {source : String}
    (he : s.Expands t d (.name source))
    (hsource : (s.ruleBase order).Derives reads facts ⟨t.name, source⟩ o x) :
    (s.ruleBase order).Derives reads facts ⟨t.name, d⟩ o x := by
  have hrule := h.mem_unary_iff.mpr ⟨t, d, .name source, he, .copy⟩
  exact .copy hrule hsource

theorem Schema.Emits.derives_arrow (h : s.Emits order) (hreads : s.Reads reads)
    {base target : String} {r : Relation} {u : Subject} {o' : Object}
    (he : s.Expands t d (.arrow base target)) (hbase : t.relation? base = some r)
    (hu : u ∈ r.subjects) (hlinked : facts.linked ⟨t.name, base⟩ o u.type o')
    (htarget : (s.ruleBase order).Derives reads facts ⟨u.type, target⟩ o' x) :
    (s.ruleBase order).Derives reads facts ⟨t.name, d⟩ o x := by
  have htakes : (Expr.arrow base target).Takes t d (.hop ⟨u.type, target, t.name, base, d⟩) :=
    .hop hbase hu
  have hrule := h.mem_binary_iff.mpr ⟨t, d, .arrow base target, he, Or.inl htakes⟩
  exact .join hrule (hreads.hop he htakes) hlinked htarget

theorem Schema.Emits.derives_intersection (h : s.Emits order) (hreads : s.Reads reads)
    {e f : Expr} (he : s.Expands t d (.intersection [e, f]))
    (hfirst : (s.ruleBase order).Derives reads facts ⟨t.name, e.operandIdentity d 0⟩ o x)
    (hsecond : (s.ruleBase order).Derives reads facts ⟨t.name, f.operandIdentity d 1⟩ o x) :
    (s.ruleBase order).Derives reads facts ⟨t.name, d⟩ o x := by
  have hrule := h.mem_binary_iff.mpr ⟨t, d, .intersection [e, f], he, Or.inr .meet⟩
  exact .meet hrule (hreads.meet he .meet) hfirst hsecond

/-- What derives a part under its name, or as a name, derives it as an operand. -/
theorem Schema.Expands.derives_operand {b : RuleBase} {e f g : Expr} {i : Nat}
    (he : s.Expands t d (.intersection [e, f])) (hi : [e, f][i]? = some g)
    (hpart : ∀ d', s.Expands t d' g → b.Derives reads facts ⟨t.name, d'⟩ o x)
    (hname : ∀ source, g = .name source → b.Derives reads facts ⟨t.name, source⟩ o x) :
    b.Derives reads facts ⟨t.name, g.operandIdentity d i⟩ o x := by
  rcases g.isComposite_or_name with hcomp | ⟨source, rfl⟩
  · rw [Expr.operandIdentity_of_isComposite hcomp]
    exact hpart _ (he.operand hi hcomp)
  · exact hname source rfl

end Derive

mutual

/-- What is granted is derived. -/
theorem Schema.Emits.derives_of_grants (h : s.Emits order) {reads : BinaryRule → Reading → Prop}
    (hreads : s.Reads reads) : ∀ {m : Member} {o : Object} {x : Holder},
      facts.Grants m o x → (s.ruleBase order).Derives reads facts m o x
  | _, _, _, .relation _ hdirect => .fact hdirect
  | m, _, _, .permission hfind hsat => by
      obtain ⟨_, htype, _, hname⟩ := Schema.of_find_permission hfind
      have hderives :=
        (h.derives_of_satisfies hreads hsat).1 _ (Schema.expands_permission hfind)
      rw [htype, hname] at hderives
      exact hderives

/-- A part that is satisfied is derived under its name.  A part that is a name is
also derived as that name, which is how an intersection refers to it. -/
theorem Schema.Emits.derives_of_satisfies (h : s.Emits order)
    {reads : BinaryRule → Reading → Prop} (hreads : s.Reads reads) :
    ∀ {t : ObjectType} {e : Expr} {o : Object} {x : Holder}, facts.Satisfies t e o x →
      (∀ d, s.Expands t d e → (s.ruleBase order).Derives reads facts ⟨t.name, d⟩ o x) ∧
      ∀ source, e = .name source →
        (s.ruleBase order).Derives reads facts ⟨t.name, source⟩ o x
  | _, _, _, _, .name hgrants => by
      have hsource := h.derives_of_grants hreads hgrants
      constructor
      · intro d he
        exact h.derives_name he hsource
      · rintro _ ⟨⟩
        exact hsource
  | _, _, _, _, .arrow hbase hu hlinked hgrants => by
      have htarget := h.derives_of_grants hreads hgrants
      constructor
      · intro d he
        exact h.derives_arrow hreads he hbase hu hlinked htarget
      · rintro _ ⟨⟩
  | _, _, _, _, .union hmem hsat => by
      constructor
      · intro d he
        exact (h.derives_of_satisfies hreads hsat).1 d (he.union hmem)
      · rintro _ ⟨⟩
  | _, _, _, _, .intersection hall => by
      -- One derivation for each operand, before the operands are known to be two.
      have hparts := fun e he => h.derives_of_satisfies hreads (hall e he)
      constructor
      · intro d he
        obtain ⟨e, f, rfl⟩ := h.intersection_eq he
        have hfirst := hparts e List.mem_cons_self
        have hsecond := hparts f (List.mem_cons_of_mem e (List.mem_singleton_self f))
        exact h.derives_intersection hreads he
          (he.derives_operand (i := 0) rfl hfirst.1 hfirst.2)
          (he.derives_operand (i := 1) rfl hsecond.1 hsecond.2)
      · rintro _ ⟨⟩

end

/-- No grant is lost: whatever the schema grants, the compiled rules derive. -/
theorem Schema.no_lost_grant {recursive : Bool} {b : RuleBase}
    (h : s.compile recursive = .ok b) (facts : Facts s Object Holder) {m : Member} {o : Object}
    {x : Holder} (hgrants : facts.Grants m o x) : b.Derives Reading.lenient facts m o x := by
  obtain ⟨order, horder, rfl⟩ := Schema.emission_of_compile h
  exact (Schema.emission_emits horder).derives_of_grants s.reads_lenient hgrants

/-- Folders `f` with a parent `p`.  A folder can be viewed, `w`, by those for whom
it is active, `a`, and who are viewers, `v`, or can view the parent. -/
def nestedFolders : Schema where
  types := [⟨"u", [], []⟩,
    ⟨"f", [⟨"p", [⟨"f", none⟩]⟩, ⟨"v", [⟨"u", none⟩]⟩, ⟨"a", [⟨"u", none⟩]⟩],
      [⟨"w", .intersection [.name "a", .union [.name "v", .arrow "p" "w"]]⟩]⟩]

/-- Folders inside each other, all active, and one viewer of the outermost. -/
def folderTower : Facts nestedFolders Nat String where
  direct m o x := x = "ann" ∧ (m = ⟨"f", "a"⟩ ∨ (m = ⟨"f", "v"⟩ ∧ o = 0))
  linked m o type o' := m = ⟨"f", "p"⟩ ∧ type = "f" ∧ o = o' + 1
  isRelation := by
    rintro m o x ⟨_, rfl | ⟨rfl, _⟩⟩
    · exact ⟨_, rfl⟩
    · exact ⟨_, rfl⟩

/-- The viewer of the outermost folder can view them all. -/
theorem folderTower_grants : ∀ n : Nat, folderTower.Grants ⟨"f", "w"⟩ n "ann"
  | 0 => by
      refine .permission rfl (.intersection ?_)
      simp only [List.forall_mem_cons]
      refine ⟨.name (.relation rfl ⟨rfl, Or.inl rfl⟩), .union List.mem_cons_self ?_, by simp⟩
      exact .name (.relation rfl ⟨rfl, Or.inr ⟨rfl, rfl⟩⟩)
  | n + 1 => by
      refine .permission rfl (.intersection ?_)
      simp only [List.forall_mem_cons]
      refine ⟨.name (.relation rfl ⟨rfl, Or.inl rfl⟩),
        .union (List.mem_cons_of_mem _ List.mem_cons_self) ?_, by simp⟩
      exact .arrow rfl List.mem_cons_self ⟨rfl, rfl, rfl⟩ (folderTower_grants n)

/-- The rules of nested folders. -/
def nestedFolderRules : RuleBase where
  restrictions := [⟨"f", "a", "u", none⟩, ⟨"f", "p", "f", none⟩, ⟨"f", "v", "u", none⟩]
  unary := [⟨"f", "v", "w$1"⟩]
  binary := [⟨"f", "w", "f", "p", "w$1"⟩, ⟨"f", "a", "f", "w$1", "w"⟩]

theorem folderTower_derives : nestedFolders.compile true = .ok nestedFolderRules ∧
    nestedFolderRules.Derives Reading.lenient folderTower ⟨"f", "w"⟩ 2 "ann" := by
  have h : nestedFolders.compile true = .ok nestedFolderRules := by cbv
  exact ⟨h, Schema.no_lost_grant h folderTower (folderTower_grants 2)⟩

/-! ## Nothing is added -/

/-- No arrow leads back to its own type. -/
def Schema.ArrowsLeave (s : Schema) : Prop :=
  ∀ t d base target r, s.Expands t d (.arrow base target) → t.relation? base = some r →
    ∀ u ∈ r.subjects, u.type ≠ t.name

/-- Within a permission, composite operands of one name are the same. -/
def Schema.NamesApart (s : Schema) : Prop :=
  ∀ m t p, s.find m = .permission t p → ∀ π π' n x x',
    p.expr.IsOperandAt p.name π n x → p.expr.IsOperandAt p.name π' n x' → x = x'

/-- Names are apart where intersections alone tell the operands apart. -/
theorem Schema.namesApart_of_nodup
    (h : ∀ t ∈ s.types, ∀ p ∈ t.permissions, (p.expr.operandPositions.map meets).Nodup) :
    s.NamesApart := by
  intro m t p hfind π π' n x x' hx hx'
  obtain ⟨ht, _, hp, _⟩ := Schema.of_find_permission hfind
  obtain rfl := hx.position_eq (h t ht p hp) hx'
  exact hx.1.unique hx'.1

mutual

/-- The relations that the arrows of an expression start from. -/
def Expr.arrowBases : Expr → List String
  | .name _ => []
  | .arrow base _ => [base]
  | .union es => Expr.arrowBasesAll es
  | .intersection es => Expr.arrowBasesAll es
  | .exclusion e f => e.arrowBases ++ f.arrowBases
termination_by structural e => e

/-- The bases of the arrows in a list of expressions. -/
def Expr.arrowBasesAll : List Expr → List String
  | [] => []
  | e :: es => e.arrowBases ++ Expr.arrowBasesAll es
termination_by structural es => es

end

theorem Expr.arrowBasesAll_eq_flatMap (es : List Expr) :
    Expr.arrowBasesAll es = es.flatMap Expr.arrowBases := by
  induction es with
  | nil => rfl
  | cons e es ih => rw [Expr.arrowBasesAll, List.flatMap_cons, ih]

theorem Expr.Expands.arrowBases_subset {d d' : String} {e y : Expr} {π : List Turn}
    (h : e.Expands d π d' y) : y.arrowBases ⊆ e.arrowBases := by
  induction h with
  | here => exact List.Subset.refl _
  | union hi _ ih =>
      rw [Expr.arrowBases, Expr.arrowBasesAll_eq_flatMap]
      exact fun base hbase => List.mem_flatMap.mpr ⟨_, List.mem_of_getElem? hi, ih hbase⟩
  | meet hi _ _ ih =>
      rw [Expr.arrowBases, Expr.arrowBasesAll_eq_flatMap]
      exact fun base hbase => List.mem_flatMap.mpr ⟨_, List.mem_of_getElem? hi, ih hbase⟩

/-- Arrows leave their types if the bases of all arrows do. -/
theorem Schema.arrowsLeave_of_forall
    (h : ∀ t ∈ s.types, ∀ p ∈ t.permissions, ∀ base ∈ p.expr.arrowBases,
      ∀ r ∈ t.relation? base, ∀ u ∈ r.subjects, u.type ≠ t.name) : s.ArrowsLeave := by
  intro t d base target r he hbase
  obtain ⟨m, p, π, hfind, he⟩ := he
  obtain ⟨ht, _, hp, _⟩ := Schema.of_find_permission hfind
  exact h t ht p hp base (he.arrowBases_subset (List.mem_singleton_self base)) r hbase

/-- If arrows leave their types, rules can be read by their types. -/
theorem Schema.ArrowsLeave.reads_byTypes (h : s.ArrowsLeave) : s.Reads Reading.byTypes where
  hop he htakes := by
    cases htakes with
    | hop hbase hu => exact h _ _ _ _ _ he hbase _ hu
  meet _ htakes := by
    cases htakes
    rfl

/-- The name stands for something that the holder has on the object: a relation
or permission that is granted, or an operand that is satisfied. -/
def Facts.Denotes (facts : Facts s Object Holder) (m : Member) (o : Object) (x : Holder) : Prop :=
  facts.Grants m o x ∨ ∃ m' t p π y, s.find m' = .permission t p ∧ t.name = m.type ∧
    p.expr.IsOperandAt p.name π m.name y ∧ facts.Satisfies t y o x

/-- A part that is satisfied satisfies the operand it stands in, or the whole
expression if no intersection is passed. -/
theorem Expr.Expands.satisfies {t : ObjectType} {d d' : String} {e y : Expr} {π : List Turn}
    {o : Object} {x : Holder} (h : e.Expands d π d' y) (hy : facts.Satisfies t y o x) :
    (d' = d ∧ facts.Satisfies t e o x) ∨
      ∃ π' z, e.IsOperandAt d π' d' z ∧ facts.Satisfies t z o x := by
  induction h with
  | here => exact Or.inl ⟨rfl, hy⟩
  | union hi _ ih =>
      rcases ih hy with ⟨hd, hsat⟩ | ⟨π', z, hz, hsat⟩
      · exact Or.inl ⟨hd, .union (List.mem_of_getElem? hi) hsat⟩
      · exact Or.inr ⟨_, z, hz.union hi, hsat⟩
  | @meet d d' e f g y i π hi hg _ ih =>
      rcases ih hy with ⟨rfl, hsat⟩ | ⟨π', z, hz, hsat⟩
      · exact Or.inr ⟨[.meet i], g, ⟨.meet hi hg .here, i, rfl⟩, hsat⟩
      · exact Or.inr ⟨_, z, hz.meet hi hg, hsat⟩

theorem Schema.Expands.denotes {t : ObjectType} {d : String} {e : Expr} {o : Object} {x : Holder}
    (h : s.Expands t d e) (hsat : facts.Satisfies t e o x) : facts.Denotes ⟨t.name, d⟩ o x := by
  obtain ⟨m, p, π, hfind, he⟩ := h
  obtain ⟨_, htype, _, hname⟩ := Schema.of_find_permission hfind
  rcases he.satisfies hsat with ⟨rfl, hsat⟩ | ⟨π', z, hz, hsat⟩
  · rw [htype, hname]
    exact Or.inl (.permission hfind hsat)
  · exact Or.inr ⟨m, t, p, π', z, hfind, rfl, hz, hsat⟩

theorem Expr.IsOperandAt.isReserved {e x : Expr} {d n : String} {π : List Turn}
    (h : e.IsOperandAt d π n x) : isReserved n = true := by
  obtain ⟨hx, i, hi⟩ := h
  obtain ⟨π', rfl⟩ := List.getLast?_eq_some_iff.mp hi
  have hname : n = operandName ((meets π').foldl operandName d) i := by
    rw [hx.name_eq]
    simp [meets]
  rw [hname]
  exact isReserved_operandName _ i

/-- A name without a separator stands for itself. -/
theorem Facts.Denotes.grants {m : Member} {o : Object} {x : Holder} (h : facts.Denotes m o x)
    (hm : isReserved m.name = false) : facts.Grants m o x := by
  rcases h with h | ⟨_, _, _, _, _, _, _, hy, _⟩
  · exact h
  · rw [hy.isReserved] at hm
    cases hm

section Sound

variable {recursive : Bool} {t : ObjectType} {d : String} {o : Object} {x : Holder}

/-- What a part needs stands for itself. -/
theorem Schema.Expands.grants_need (horder : s.emission recursive = .ok order) {e : Expr}
    {m origin : Member} (he : s.Expands t d e) (htakes : e.Takes t d (.need m origin))
    (h : facts.Denotes m o x) : facts.Grants m o x := by
  have hpassed := (Schema.emission_emits horder).passed_of_takes he htakes
  exact h.grants (Schema.name_not_isReserved horder (hpassed.imp id And.left))

/-- The name of a composite operand stands for that operand.  Its first part is
the permission, and within the permission the name belongs to one operand. -/
theorem Schema.Expands.satisfies_composite (horder : s.emission recursive = .ok order)
    (hapart : s.NamesApart) {e f g : Expr} {i : Nat} (he : s.Expands t d (.intersection [e, f]))
    (hi : [e, f][i]? = some g) (hg : g.IsComposite)
    (h : facts.Denotes ⟨t.name, operandName d i⟩ o x) : facts.Satisfies t g o x := by
  rcases h with h | ⟨m', t', p', π', y, hfind', htype, hy, hsat⟩
  · have hname := Schema.name_not_isReserved horder h.isDeclared
    rw [isReserved_operandName] at hname
    cases hname
  · obtain ⟨m, p, π, hfind, hd⟩ := he
    have hoperand : p.expr.IsOperandAt p.name (π ++ [.meet i]) (operandName d i) g :=
      ⟨hd.trans (.meet hi hg .here), i, List.getLast?_concat⟩
    obtain ⟨_, hmtype, _, hmname⟩ := Schema.of_find_permission hfind
    obtain ⟨_, hmtype', _, hmname'⟩ := Schema.of_find_permission hfind'
    have hp := Schema.name_not_isReserved horder (Or.inr ⟨t, p, hfind⟩)
    have hp' := Schema.name_not_isReserved horder (Or.inr ⟨t', p', hfind'⟩)
    -- Both permissions are the part of the name before its first separator.
    have hnames : p'.name = p.name := by
      rw [← hmname] at hp
      rw [← hmname'] at hp'
      rw [← hy.1.baseName_eq hp', hoperand.1.baseName_eq hp]
    have hmembers : m' = m := by
      cases m
      cases m'
      simp_all
    rw [hmembers, hfind] at hfind'
    cases hfind'
    rw [hapart m _ _ hfind _ _ _ _ _ hoperand hy]
    exact hsat

theorem Schema.Expands.satisfies_operand (horder : s.emission recursive = .ok order)
    (hapart : s.NamesApart) {e f g : Expr} {i : Nat} (he : s.Expands t d (.intersection [e, f]))
    (hi : [e, f][i]? = some g) (h : facts.Denotes ⟨t.name, g.operandIdentity d i⟩ o x) :
    facts.Satisfies t g o x := by
  rcases g.isComposite_or_name with hg | ⟨source, rfl⟩
  · rw [Expr.operandIdentity_of_isComposite hg] at h
    exact he.satisfies_composite horder hapart hi hg h
  · exact .name (he.grants_need horder (.operand (List.mem_of_getElem? hi)) h)

/-- What is derived stands for something. -/
theorem Schema.denotes_of_derives (horder : s.emission recursive = .ok order)
    (hleave : s.ArrowsLeave) (hapart : s.NamesApart) {m : Member}
    (h : (s.ruleBase order).Derives Reading.byTypes facts m o x) : facts.Denotes m o x := by
  have hemits := Schema.emission_emits horder
  induction h with
  | fact hdirect =>
      obtain ⟨r, hr⟩ := facts.isRelation _ _ _ hdirect
      exact Or.inl (.relation hr hdirect)
  -- Each rule was taken by some part, and that part is satisfied.
  | copy hr _ ih =>
      obtain ⟨t, d, e, he, htakes⟩ := hemits.mem_unary_iff.mp hr
      cases htakes with
      | copy => exact he.denotes (.name (he.grants_need horder .need ih))
  | join hr hread hlinked _ ih =>
      obtain ⟨t, d, e, he, htakes | htakes⟩ := hemits.mem_binary_iff.mp hr
      · cases htakes with
        | hop hbase hu =>
            exact he.denotes
              (.arrow hbase hu hlinked (he.grants_need horder (.target hbase hu) ih))
      · cases htakes with
        | meet => exact absurd rfl hread
  | meet hr hread _ _ ihfirst ihsecond =>
      obtain ⟨t, d, e, he, htakes | htakes⟩ := hemits.mem_binary_iff.mp hr
      · cases htakes with
        | hop hbase hu => exact absurd hread (hleave _ _ _ _ _ he hbase _ hu)
      · cases htakes with
        | @meet e f =>
            have hfirst := he.satisfies_operand (i := 0) horder hapart rfl ihfirst
            have hsecond := he.satisfies_operand (i := 1) horder hapart rfl ihsecond
            refine he.denotes (.intersection ?_)
            intro g hg
            rcases List.mem_cons.mp hg with rfl | hg
            · exact hfirst
            · rw [List.mem_singleton.mp hg]
              exact hsecond

end Sound

/-- No grant is added either: where arrows leave their types and synthesized names
are kept apart, the compiled rules, read by their types, derive a permission
exactly where the schema grants it. -/
theorem Schema.derives_iff_grants {recursive : Bool} {b : RuleBase}
    (h : s.compile recursive = .ok b) (hleave : s.ArrowsLeave) (hapart : s.NamesApart)
    (facts : Facts s Object Holder) {m : Member} (hm : m ∈ s.permissionMembers) (o : Object)
    (x : Holder) : b.Derives Reading.byTypes facts m o x ↔ facts.Grants m o x := by
  obtain ⟨order, horder, rfl⟩ := Schema.emission_of_compile h
  constructor
  · intro hderives
    apply (Schema.denotes_of_derives horder hleave hapart hderives).grants
    obtain ⟨t, ht, hmem⟩ := List.mem_flatMap.mp hm
    obtain ⟨p, hp, rfl⟩ := List.mem_map.mp hmem
    refine Schema.not_isReserved_of_emission horder ht ?_
    exact List.mem_cons_of_mem _ (List.mem_append_right _ (List.mem_map.mpr ⟨p, hp, rfl⟩))
  · exact (Schema.emission_emits horder).derives_of_grants hleave.reads_byTypes

/-- Documents `d` with a parent folder `p`.  A document can be viewed, `w`, by its
viewers and those of the folder, `v`, as far as they are allowed to, `a`. -/
def sharedDocuments : Schema where
  types := [⟨"u", [], []⟩, ⟨"f", [⟨"v", [⟨"u", none⟩]⟩], []⟩,
    ⟨"d", [⟨"a", [⟨"u", none⟩]⟩, ⟨"p", [⟨"f", none⟩]⟩, ⟨"v", [⟨"u", none⟩]⟩],
      [⟨"w", .intersection [.union [.name "v", .arrow "p" "v"], .name "a"]⟩]⟩]

/-- The rules of shared documents. -/
def sharedDocumentRules : RuleBase where
  restrictions := [⟨"d", "a", "u", none⟩, ⟨"d", "p", "f", none⟩, ⟨"d", "v", "u", none⟩,
    ⟨"f", "v", "u", none⟩]
  unary := [⟨"d", "v", "w$0"⟩]
  binary := [⟨"f", "v", "d", "p", "w$0"⟩, ⟨"d", "w$0", "d", "a", "w"⟩]

/-- One document in a folder.  All may view the folder, one is allowed to view the
document. -/
def sharedFolder : Facts sharedDocuments Unit String where
  direct m _ x := m = ⟨"f", "v"⟩ ∨ (m = ⟨"d", "a"⟩ ∧ x = "ann")
  linked m _ type _ := m = ⟨"d", "p"⟩ ∧ type = "f"
  isRelation := by
    rintro m o x (rfl | ⟨rfl, _⟩)
    · exact ⟨_, rfl⟩
    · exact ⟨_, rfl⟩

theorem sharedFolder_derives_iff : sharedDocuments.compile = .ok sharedDocumentRules ∧
    sharedDocuments.ArrowsLeave ∧ sharedDocuments.NamesApart ∧
    (sharedDocumentRules.Derives Reading.byTypes sharedFolder ⟨"d", "w"⟩ () "ann" ↔
      sharedFolder.Grants ⟨"d", "w"⟩ () "ann") := by
  have h : sharedDocuments.compile = .ok sharedDocumentRules := by cbv
  have hleave : sharedDocuments.ArrowsLeave := Schema.arrowsLeave_of_forall (by decide)
  have hapart : sharedDocuments.NamesApart := Schema.namesApart_of_nodup (by decide)
  exact ⟨h, hleave, hapart,
    Schema.derives_iff_grants h hleave hapart sharedFolder (by decide) () "ann"⟩

end Rebac
