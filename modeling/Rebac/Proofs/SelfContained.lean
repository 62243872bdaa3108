import Rebac.Proofs.Grants
import Rebac.Proofs.WarmResolver

/-!
# A resolution is self-contained

The rules of a resolved name are a slice of the compiled rule base: the own rules of
some permissions, closed under needs (`Schema.Closed`).  Such a slice derives what the
whole rule base derives, as long as the question stays in its *scope*, that is relations,
the permissions of the slice and the names synthesized for them.

Two things keep a derivation in scope.  A rule of the whole rule base whose head is in
scope belongs to a permission of the slice: the part of the head before its first separator
names that permission, since declared names hold no separator.  And what such a rule asks
for is in scope again, since the slice is closed under needs.

Neither uses how a rule is read or what is held directly.  So the result holds for every
reading of the binary rules and for arbitrary data.
-/

namespace Rebac

universe u v

/-! ## Slices of a rule base -/

section Slice

variable {s : Schema} {Object : Type u} {Holder : Type v} {facts : Facts s Object Holder}
  {reads : BinaryRule → Reading → Prop} {m : Member} {o : Object} {x : Holder}

theorem RuleBase.Derives.mono {b b' : RuleBase} (hunary : b.unary ⊆ b'.unary)
    (hbinary : b.binary ⊆ b'.binary) (h : b.Derives reads facts m o x) :
    b'.Derives reads facts m o x := by
  induction h with
  | fact hdirect => exact .fact hdirect
  | copy hr _ ih => exact .copy (hunary hr) ih
  | join hr hread hlinked _ ih => exact .join (hbinary hr) hread hlinked ih
  | meet hr hread _ _ ihfirst ihsecond => exact .meet (hbinary hr) hread ihfirst ihsecond

/-- The slice has every rule whose head is in scope, and what these rules ask for is in
scope. -/
structure RuleBase.Covers (slice b : RuleBase) (scope : Member → Prop) : Prop where
  unary : ∀ r ∈ b.unary, scope ⟨r.type, r.derived⟩ → r ∈ slice.unary ∧ scope ⟨r.type, r.source⟩
  binary : ∀ r ∈ b.binary, scope ⟨r.secondType, r.derived⟩ →
    r ∈ slice.binary ∧ scope ⟨r.firstType, r.first⟩ ∧ scope ⟨r.secondType, r.second⟩

theorem RuleBase.Covers.derives {slice b : RuleBase} {scope : Member → Prop}
    (h : slice.Covers b scope) (hm : scope m) (hderives : b.Derives reads facts m o x) :
    slice.Derives reads facts m o x := by
  induction hderives with
  | fact hdirect => exact .fact hdirect
  | copy hr _ ih =>
      obtain ⟨hslice, hsource⟩ := h.unary _ hr hm
      exact .copy hslice (ih hsource)
  | join hr hread hlinked _ ih =>
      obtain ⟨hslice, hfirst, _⟩ := h.binary _ hr hm
      exact .join hslice hread hlinked (ih hfirst)
  | meet hr hread _ _ ihfirst ihsecond =>
      obtain ⟨hslice, hfirst, hsecond⟩ := h.binary _ hr hm
      exact .meet hslice hread (ihfirst hfirst) (ihsecond hsecond)

end Slice

/-! ## What a walk lists is closed -/

/-- What a listed permission needs is listed as well, or being listed. -/
theorem Memory.walk_closed {memory : Memory} {path order todo : List Member}
    (horder : ∀ m ∈ order, ∀ n ∈ memory.needs m, n ∈ order ∨ n ∈ path) :
    ∀ m ∈ memory.walk path order todo, ∀ n ∈ memory.needs m,
      n ∈ memory.walk path order todo ∨ n ∈ path := by
  fun_induction Memory.walk memory path order todo with
  | case1 path order => exact horder
  | case2 path order k rest hskip ih => exact ih horder
  | case3 path order k rest hnew ihneeds ih =>
      have hlong : ∀ m ∈ order, ∀ n ∈ memory.needs m, n ∈ order ∨ n ∈ path ++ [k] :=
        fun m hm n hn => (horder m hm n hn).imp_right (List.mem_append_left _)
      have hinner := ihneeds hlong
      -- With `k` listed, what stood on the longer path is listed or on the shorter one.
      have hshort : ∀ n, n ∈ memory.walk (path ++ [k]) order (memory.needs k) ∨ n ∈ path ++ [k] →
          n ∈ memory.walk (path ++ [k]) order (memory.needs k) ++ [k] ∨ n ∈ path := by
        intro n hn
        simp only [List.mem_append] at hn ⊢
        grind
      apply ih
      intro m hm n hn
      apply hshort
      rcases List.mem_append.mp hm with hm | hm
      · exact hinner m hm n hn
      · rw [List.mem_singleton.mp hm] at hn
        by_cases hpath : n ∈ path ++ [k]
        · exact .inr hpath
        · exact .inl (Memory.mem_walk hn hpath)

/-- Permissions that need nothing but each other and relations. -/
structure Schema.Closed (s : Schema) (members : List Member) : Prop where
  isPermission : ∀ m ∈ members, s.IsPermission m
  passed : ∀ m ∈ members, ∀ step ∈ s.ownSteps m, step.Passed s (· ∈ members)

/-- What a sound resolver lists for a name is closed, and the name is a relation or listed. -/
theorem Resolver.Sound.order_closed {r : Resolver} (h : r.Sound) {m : Member}
    {members : List Member} (hok : (r.order m).1 = .ok members) :
    r.schema.Closed members ∧ (r.schema.IsRelation m ∨ m ∈ members) := by
  rw [Resolver.order] at hok
  split at hok
  · cases hok
  · rename_i memory hfollow
    cases hok
    obtain ⟨hsettled, _, hpassed⟩ := Schema.follow_settled hfollow h.settled
    have htodo := Schema.knows_of_follow hfollow h.settled
    have hknows : ∀ n ∈ memory.walk [] [] (Step.permissions r.schema [.need m m]),
        memory.knows n = true := hsettled.walk_knows (by simp) htodo
    refine ⟨⟨fun n hn => hsettled.isPermission (hknows n hn), ?_⟩, ?_⟩
    · intro n hn step hstep
      have hstep' := hsettled.passed n (hknows n hn) step hstep
      cases step with
      | need k origin =>
          refine hstep'.imp_right fun ⟨hperm, _⟩ => ⟨hperm, ?_⟩
          have hk : k ∈ memory.needs n := by
            rw [hsettled.needs_eq (hknows n hn)]
            exact Schema.mem_needs.mpr ⟨hperm, origin, hstep⟩
          exact (Memory.walk_closed (by simp) n hn k hk).resolve_right List.not_mem_nil
      | copy r => trivial
      | hop r => trivial
      | meet r => trivial
      | reject e => exact hstep'
    · refine (hpassed _ (List.mem_singleton_self _)).imp_right fun ⟨hperm, _⟩ => ?_
      exact Memory.mem_walk (Step.mem_permissions.mpr ⟨hperm, m, List.mem_singleton_self _⟩)
        List.not_mem_nil

/-! ## Scopes -/

/-- The names that a slice speaks about: relations, its permissions, and what is synthesized
for them. -/
def Schema.InScope (s : Schema) (members : List Member) (m : Member) : Prop :=
  s.IsRelation m ∨ ⟨m.type, baseName m.name⟩ ∈ members

section Scope

variable {s : Schema} {recursive : Bool} {order members : List Member}

theorem baseName_of_not_isReserved {name : String} (h : isReserved name = false) :
    baseName name = name :=
  Expr.Expands.baseName_eq (e := .name name) .here h

/-- The name of a part is in scope of the permissions that it belongs to. -/
theorem Schema.inScope_part (horder : s.emission recursive = .ok order) {m : Member}
    {t : ObjectType} {p : Permission} (hfind : s.find m = .permission t p) {π : List Turn}
    {d : String} {e : Expr} (he : p.expr.Expands p.name π d e) (hm : m ∈ members) :
    s.InScope members ⟨t.name, d⟩ := by
  obtain ⟨_, htype, _, hname⟩ := Schema.of_find_permission hfind
  have hp := Schema.name_not_isReserved horder (.inr ⟨t, p, hfind⟩)
  rw [← hname] at hp
  refine .inr ?_
  rw [he.baseName_eq hp, htype, hname]
  exact hm

/-- A part whose name is in scope belongs to one of the permissions. -/
theorem Schema.mem_of_inScope (horder : s.emission recursive = .ok order) {m : Member}
    {t : ObjectType} {p : Permission} (hfind : s.find m = .permission t p) {π : List Turn}
    {d : String} {e : Expr} (he : p.expr.Expands p.name π d e)
    (hscope : s.InScope members ⟨t.name, d⟩) : m ∈ members := by
  obtain ⟨_, htype, _, hname⟩ := Schema.of_find_permission hfind
  have hp := Schema.name_not_isReserved horder (.inr ⟨t, p, hfind⟩)
  rw [← hname] at hp
  have hbase := he.baseName_eq hp
  rcases hscope with hrel | hmem
  · -- The name of a relation is not synthesized, so it would be the permission's own.
    have hd := baseName_of_not_isReserved (Schema.name_not_isReserved horder (.inl hrel))
    simp only [hbase] at hd
    rw [← hd, htype, hname] at hrel
    exact absurd hrel (Schema.not_isRelation_of_isPermission ⟨t, p, hfind⟩)
  · rw [hbase, htype, hname] at hmem
    exact hmem

theorem Schema.Closed.inScope (h : s.Closed members)
    (horder : s.emission recursive = .ok order) {m : Member}
    (hm : s.IsRelation m ∨ m ∈ members) : s.InScope members m := by
  refine hm.imp_right fun hmem => ?_
  have hname := Schema.name_not_isReserved horder (.inr (h.isPermission m hmem))
  rwa [baseName_of_not_isReserved hname]

section Part

variable {m : Member} {t : ObjectType} {p : Permission} {π : List Turn} {d : String}

/-- What a part of a closed permission needs is in scope. -/
theorem Schema.Closed.inScope_need (h : s.Closed members)
    (horder : s.emission recursive = .ok order) (hfind : s.find m = .permission t p) {e : Expr}
    (he : p.expr.Expands p.name π d e) (hm : m ∈ members) {n origin : Member}
    (htakes : e.Takes t d (.need n origin)) : s.InScope members n := by
  have hstep := Schema.mem_ownSteps_iff.mpr ⟨t, p, π, d, e, hfind, he, htakes⟩
  exact h.inScope horder ((h.passed m hm _ hstep).imp_right And.right)

/-- The name by which an intersection refers to an operand is in scope. -/
theorem Schema.Closed.inScope_operand (h : s.Closed members)
    (horder : s.emission recursive = .ok order) (hfind : s.find m = .permission t p) {e f g : Expr}
    (he : p.expr.Expands p.name π d (.intersection [e, f])) (hm : m ∈ members) {i : Nat}
    (hi : [e, f][i]? = some g) : s.InScope members ⟨t.name, g.operandIdentity d i⟩ := by
  rcases g.isComposite_or_name with hg | ⟨source, rfl⟩
  · rw [Expr.operandIdentity_of_isComposite hg]
    exact Schema.inScope_part horder hfind (he.trans (.meet hi hg .here)) hm
  · exact h.inScope_need horder hfind he hm (.operand (List.mem_of_getElem? hi))

end Part

/-- The own rules of closed permissions cover the whole rule base. -/
theorem Schema.Closed.covers (h : s.Closed members) (horder : s.emission recursive = .ok order) :
    (s.ruleBase members).Covers (s.ruleBase order) (s.InScope members) := by
  constructor
  · intro r hr hscope
    obtain ⟨m, _, hstep⟩ := Schema.mem_unary_ruleBase.mp hr
    have hslice : m ∈ members → r ∈ (s.ruleBase members).unary := fun hm =>
      Schema.mem_unary_ruleBase.mpr ⟨m, hm, hstep⟩
    obtain ⟨t, p, π, d, e, hfind, he, htakes⟩ := Schema.mem_ownSteps_iff.mp hstep
    cases htakes with
    | copy =>
        have hm := Schema.mem_of_inScope horder hfind he hscope
        exact ⟨hslice hm, h.inScope_need horder hfind he hm .need⟩
  · intro r hr hscope
    obtain ⟨m, _, hstep⟩ := Schema.mem_binary_ruleBase.mp hr
    have hslice : m ∈ members → r ∈ (s.ruleBase members).binary := fun hm =>
      Schema.mem_binary_ruleBase.mpr ⟨m, hm, hstep⟩
    rcases hstep with hstep | hstep
    · obtain ⟨t, p, π, d, e, hfind, he, htakes⟩ := Schema.mem_ownSteps_iff.mp hstep
      cases htakes with
      | hop hbase hu =>
          have hm := Schema.mem_of_inScope horder hfind he hscope
          -- The second name is asked for where the rule is read as a conjunction.
          have hsecond := Schema.isRelation_base hfind hbase
          exact ⟨hslice hm, h.inScope_need horder hfind he hm (.target hbase hu), .inl hsecond⟩
    · obtain ⟨t, p, π, d, e, hfind, he, htakes⟩ := Schema.mem_ownSteps_iff.mp hstep
      cases htakes with
      | meet =>
          have hm := Schema.mem_of_inScope horder hfind he hscope
          exact ⟨hslice hm, h.inScope_operand horder hfind he hm (i := 0) rfl,
            h.inScope_operand horder hfind he hm (i := 1) rfl⟩

/-- The rules of closed permissions are among those of the whole schema. -/
theorem Schema.Closed.ruleBase_subset (h : s.Closed members) (hemits : s.Emits order) :
    (s.ruleBase members).unary ⊆ (s.ruleBase order).unary ∧
      (s.ruleBase members).binary ⊆ (s.ruleBase order).binary := by
  have hsub : ∀ m ∈ members, m ∈ order := fun m hm => hemits.mem m (h.isPermission m hm)
  constructor
  · intro r hr
    obtain ⟨m, hm, hstep⟩ := Schema.mem_unary_ruleBase.mp hr
    exact Schema.mem_unary_ruleBase.mpr ⟨m, hsub m hm, hstep⟩
  · intro r hr
    obtain ⟨m, hm, hstep⟩ := Schema.mem_binary_ruleBase.mp hr
    exact Schema.mem_binary_ruleBase.mpr ⟨m, hsub m hm, hstep⟩

end Scope

/-! ## Resolutions -/

/-- The rules of a resolution alone. -/
def Resolution.ruleBase (answer : Resolution) : RuleBase := ⟨[], answer.unary, answer.binary⟩

theorem Resolver.Sound.of_resolve {r : Resolver} (h : r.Sound) {m : Member} {answer : Resolution}
    (hok : (r.resolve m).1 = .ok answer) : ∃ members, (r.order m).1 = .ok members ∧
      answer.unary = (r.schema.ruleBase members).unary ∧
      answer.binary = (r.schema.ruleBase members).binary := by
  rw [h.resolve_eq] at hok
  cases horder : (r.order m).1 with
  | error e =>
      rw [horder] at hok
      cases hok
  | ok members =>
      rw [horder] at hok
      cases hok
      exact ⟨members, rfl, rfl, rfl⟩

/-- A resolution is self-contained: in a schema that compiles, the rules of a resolved name derive
it exactly where the whole rule base does, however binary rules are read and whatever is held and
linked directly, on members of this schema or of any other. -/
theorem Schema.derives_resolution_iff {s s' : Schema} {recursive recursive' : Bool} {b : RuleBase}
    {m : Member} {answer : Resolution} (h : s.compile recursive = .ok b)
    (hanswer : (Resolver.resolve ⟨s, recursive', []⟩ m).1 = .ok answer) {Object : Type u}
    {Holder : Type v} (reads : BinaryRule → Reading → Prop) (facts : Facts s' Object Holder)
    (o : Object) (x : Holder) :
    answer.ruleBase.Derives reads facts m o x ↔ b.Derives reads facts m o x := by
  obtain ⟨order, horder, rfl⟩ := Schema.emission_of_compile h
  have hfresh := Resolver.sound_fresh s recursive'
  obtain ⟨members, hmembers, hunary, hbinary⟩ := hfresh.of_resolve hanswer
  obtain ⟨hclosed, hm⟩ := hfresh.order_closed hmembers
  obtain ⟨hsubunary, hsubbinary⟩ := hclosed.ruleBase_subset (Schema.emission_emits horder)
  constructor
  · refine RuleBase.Derives.mono ?_ ?_
    · simpa only [Resolution.ruleBase, hunary] using hsubunary
    · simpa only [Resolution.ruleBase, hbinary] using hsubbinary
  · intro hderives
    have hslice := (hclosed.covers horder).derives (hclosed.inScope horder hm) hderives
    refine hslice.mono ?_ ?_
    · simp only [Resolution.ruleBase, hunary]
      exact List.Subset.refl _
    · simp only [Resolution.ruleBase, hbinary]
      exact List.Subset.refl _

/-- Nested folders that can also be edited, `e`, by those for whom they are active and who can
view them or can edit the parent. -/
def editedFolders : Schema where
  types := [⟨"u", [], []⟩,
    ⟨"f", [⟨"p", [⟨"f", none⟩]⟩, ⟨"v", [⟨"u", none⟩]⟩, ⟨"a", [⟨"u", none⟩]⟩],
      [⟨"w", .intersection [.name "a", .union [.name "v", .arrow "p" "w"]]⟩,
        ⟨"e", .intersection [.name "a", .union [.name "w", .arrow "p" "e"]]⟩]⟩]

/-- The rules of edited folders. -/
def editedFolderRules : RuleBase where
  restrictions := [⟨"f", "a", "u", none⟩, ⟨"f", "p", "f", none⟩, ⟨"f", "v", "u", none⟩]
  unary := [⟨"f", "v", "w$1"⟩, ⟨"f", "w", "e$1"⟩]
  binary := [⟨"f", "w", "f", "p", "w$1"⟩, ⟨"f", "a", "f", "w$1", "w"⟩,
    ⟨"f", "e", "f", "p", "e$1"⟩, ⟨"f", "a", "f", "e$1", "e"⟩]

/-- The rules for viewing alone. -/
def viewResolution : Resolution where
  identity := "w"
  unary := [⟨"f", "v", "w$1"⟩]
  binary := [⟨"f", "w", "f", "p", "w$1"⟩, ⟨"f", "a", "f", "w$1", "w"⟩]

theorem viewResolution_derives_iff : editedFolders.compile true = .ok editedFolderRules ∧
    (Resolver.resolve ⟨editedFolders, true, []⟩ ⟨"f", "w"⟩).1 = .ok viewResolution ∧
    (viewResolution.ruleBase.Derives Reading.lenient folderTower ⟨"f", "w"⟩ 2 "ann" ↔
      editedFolderRules.Derives Reading.lenient folderTower ⟨"f", "w"⟩ 2 "ann") := by
  have h : editedFolders.compile true = .ok editedFolderRules := by cbv
  have hview : (Resolver.resolve ⟨editedFolders, true, []⟩ ⟨"f", "w"⟩).1 = .ok viewResolution := by
    cbv
  exact ⟨h, hview, Schema.derives_resolution_iff h hview Reading.lenient folderTower 2 "ann"⟩

end Rebac
