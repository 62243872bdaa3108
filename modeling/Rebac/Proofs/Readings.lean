import Mathlib.Data.List.Infix
import Rebac.Proofs.Regrouping

/-!
# What a rule base shows of its schema

Which binary rules of a compiled rule base are joins and which are conjunctions can be read off the
rule base, up to loops that look like intersections.  Where the rule base shows a reading it is the
right one, and where it shows none, there is a schema for each of the two readings
(`Schema.readingAt_of_compile`).

The restriction table has to show what relations accept.  If a relation is declared twice, lookups
take the first declaration, and the table lists the rows of both.
-/

namespace Rebac

variable {s : Schema} {recursive : Bool} {order : List Member}

/-- The rules of a permission tell which permission it is. -/
theorem Schema.eq_of_mem_binaryRules (horder : s.emission recursive = .ok order) {m : Member}
    {r : BinaryRule} (hr : r ∈ Step.binaryRules (s.ownSteps m)) :
    m = ⟨r.secondType, baseName r.derived⟩ := by
  have hperm : s.IsPermission m := by
    rcases Step.mem_binaryRules.mp hr with hstep | hstep
    all_goals
      obtain ⟨t, p, hfind, _⟩ := Schema.of_mem_ownSteps hstep
      exact ⟨t, p, hfind⟩
  have hname := Schema.name_not_isReserved horder (.inr hperm)
  obtain ⟨t, p, hfind⟩ := hperm
  obtain ⟨_, htype, _, hp⟩ := Schema.of_find_permission hfind
  rw [Schema.ownSteps_of_find hfind] at hr
  obtain ⟨hsecond, is, hderived⟩ := Expr.derived_of_mem hr
  rw [hderived, hsecond, htype, hp, baseName, foldl_operandName_toList,
    takeWhile_append_operandSuffix (separator_not_mem hname), String.ofList_toList]

/-- Rules that stand in a row belong to one permission. -/
theorem Schema.exists_permission_of_replicate (horder : s.emission recursive = .ok order) {n : Nat}
    (hn : 0 < n) {r : BinaryRule} {before after : List BinaryRule}
    (hrules : (s.ruleBase order).binary = before ++ List.replicate n r ++ after) :
    ∃ order₁ m order₂ before' after', order = order₁ ++ m :: order₂ ∧
      Step.binaryRules (s.ownSteps m) = before' ++ List.replicate n r ++ after' ∧
      before = (s.ruleBase order₁).binary ++ before' := by
  have hpairwise : order.Pairwise fun m m' => r ∈ Step.binaryRules (s.ownSteps m') →
      (Step.binaryRules (s.ownSteps m)).getLast? ≠ some r := by
    refine (Schema.lists_emission horder).nodup.imp fun {m m'} hne hr hlast => hne ?_
    rw [Schema.eq_of_mem_binaryRules horder hr,
      Schema.eq_of_mem_binaryRules horder (List.mem_of_getLast? hlast)]
  obtain ⟨order₁, m, order₂, before', after', hsplit, hm, hbefore, _⟩ :=
    exists_replicate_of_flatMap hn hpairwise hrules
  exact ⟨order₁, m, order₂, before', after', hsplit, hm, hbefore⟩

/-- A rule that shows nothing is that of a loop. -/
theorem Schema.loops_of_shown?_eq_none (horder : s.emission recursive = .ok order) {i : Nat}
    {r : BinaryRule} (hr : (s.ruleBase order).binary[i]? = some r) {t : ObjectType}
    (htype : s.type? t.name = some t) (hname : t.name = r.secondType)
    (h : Reading.shown? (s.accepted r.base) (s.ruleBase order).binary i = none) :
    t.Loops s r.second r.first (s.accepted r.base).length := by
  obtain ⟨_, hfirst, hown, before, after, _, hle, hlt⟩ := Reading.of_shown?_eq_none hr h
  have hpos : 0 < (s.accepted r.base).length := by omega
  obtain ⟨rel, hfind⟩ : ∃ rel, s.find r.base = .relation rel := by
    rw [Schema.accepted] at hpos
    split at hpos
    · rename_i rel hfind
      exact ⟨rel, hfind⟩
    · cases hpos
  obtain ⟨t', htype', hrel⟩ := Schema.find_eq_relation_iff.mp hfind
  obtain rfl : t = t' := by
    rw [hname] at htype
    exact Option.some.inj (htype.symm.trans htype')
  have hplain := Schema.name_not_isReserved horder (.inl ⟨rel, hfind⟩)
  refine ⟨htype, ⟨rel, hrel, ?_⟩, hplain, hfirst, hpos⟩
  rw [Schema.accepted, hfind] at hown ⊢
  rw [hname]
  exact List.eq_replicate_iff.mpr ⟨by simp, hown⟩

/-! ## Putting another expression in -/

/-- The schema with another expression for a permission. -/
def Schema.putExpr (s : Schema) (m : Member) (e : Expr) : Schema :=
  s.mapExprs fun m' e' => if m' = m then e else e'

theorem Schema.DistinctRelations.mapExprs (h : s.DistinctRelations) (f : Member → Expr → Expr) :
    (s.mapExprs f).DistinctRelations where
  types := by
    rw [Schema.mapExprs, List.map_map]
    exact h.types
  relations t ht := by
    obtain ⟨t', ht', rfl⟩ := List.mem_map.mp ht
    exact h.relations t' ht'

section Put

variable {m : Member} {t : ObjectType} {p : Permission} {e : Expr}

theorem Schema.keeps_putExpr (hfind : s.find m = .permission t p)
    (he : Step.Replaces s (e.steps t p.name) (p.expr.steps t p.name)) :
    s.Keeps fun m' e' => if m' = m then e else e' := by
  intro m' t' p' hfind'
  dsimp only
  split
  · rename_i hm
    subst hm
    cases hfind.symm.trans hfind'
    exact he
  · exact .refl s _

/-- The rules of the permission have the readings that its expression gives them. -/
theorem Schema.readingAt_putExpr (horder : s.emission recursive = .ok order)
    (hfind : s.find m = .permission t p)
    (he : Step.Replaces s (e.steps t p.name) (p.expr.steps t p.name)) {order₁ order₂ : List Member}
    (hsplit : order = order₁ ++ m :: order₂) {j : Nat} {r : BinaryRule} {k : Reading}
    (hj : (Step.origins (e.steps t p.name))[j]? = some (r, k)) :
    (s.putExpr m e).readingAt recursive ((s.ruleBase order₁).binary.length + j) = some k := by
  have hkeeps := Schema.keeps_putExpr hfind he
  have hown : (s.putExpr m e).ownSteps m = e.steps t p.name := by
    rw [Schema.putExpr, Schema.ownSteps_mapExprs hfind, if_pos rfl]
  have hlength : ((s.putExpr m e).origins order₁).length = (s.ruleBase order₁).binary.length := by
    rw [← List.length_map Prod.fst, Schema.origins_map_fst, Schema.putExpr,
      hkeeps.ruleBase_mapExprs]
  have hbound := (List.getElem?_eq_some_iff.mp hj).1
  rw [Schema.readingAt, Schema.putExpr, hkeeps.emission_mapExprs horder]
  show ((s.putExpr m e).origins order)[_]?.map Prod.snd = some k
  rw [hsplit, Schema.origins, List.flatMap_append, List.flatMap_cons, hown, ← Schema.origins,
    ← hlength, List.getElem?_append_right (Nat.le_add_right _ _), Nat.add_sub_cancel_left,
    List.getElem?_append_left hbound, hj]
  rfl

end Put

/-- Where the rules show nothing, there is a schema for each reading. -/
theorem Schema.exists_readingAt_eq (horder : s.emission recursive = .ok order) {i : Nat}
    {r : BinaryRule} (hr : (s.ruleBase order).binary[i]? = some r)
    (h : Reading.shown? (s.accepted r.base) (s.ruleBase order).binary i = none) (k : Reading) :
    ∃ s' : Schema, (s.DistinctRelations → s'.DistinctRelations) ∧
      (∀ limits, s'.problems limits = s.problems limits) ∧
      s'.compile recursive = .ok (s.ruleBase order) ∧ s'.readingAt recursive i = some k := by
  obtain ⟨htypes, _, _, before, after, hrules, hle, hlt⟩ := Reading.of_shown?_eq_none hr h
  obtain ⟨order₁, m, order₂, before', after', hsplit, hm, hbefore⟩ :=
    Schema.exists_permission_of_replicate horder (by omega) hrules
  obtain ⟨t, p, hfind⟩ := (Schema.emission_emits horder).isPermission m (by simp [hsplit])
  rw [Schema.ownSteps_of_find hfind] at hm
  have hmem : r ∈ Step.binaryRules (p.expr.steps t p.name) := by
    rw [hm, List.mem_append, List.mem_append, List.mem_replicate]
    exact .inl (.inr ⟨by omega, rfl⟩)
  have hname := (Expr.derived_of_mem hmem).1.symm
  have hloops := Schema.loops_of_shown?_eq_none horder hr
    (Schema.type?_of_find_permission hfind) hname h
  have hloop : r = .loop t.name r.second r.first r.derived := by
    rw [hname]
    exact congrArg (BinaryRule.mk · r.first r.secondType r.second r.derived) htypes
  obtain ⟨l, rfl⟩ := Nat.exists_eq_add_of_le hle
  generalize (s.accepted r.base).length = n at hm hloops hlt
  rw [hloop] at hm
  obtain ⟨e, he, horigins⟩ := hloops.exists_origins hm (Nat.lt_of_add_lt_add_left hlt) k
  refine ⟨s.putExpr m e, fun hdistinct => hdistinct.mapExprs _, fun limits =>
    Schema.problems_mapExprs .., ?_, ?_⟩
  · refine (Schema.keeps_putExpr hfind he).compile_mapExprs ?_
    rw [Schema.compile_eq, horder]
    rfl
  · rw [hbefore, List.length_append, Nat.add_assoc]
    exact Schema.readingAt_putExpr horder hfind he hsplit horigins

/-! ## What can be read off a rule base -/

/-- What a rule base shows of a schema that compiles to it.  If no relation is declared twice,
the reading that the rule base shows is the right one; and where it shows none, the rule has no
reading of its own: for each of the two there is a schema with the same problems and the same
rule base that means it so.  If relations are declared twice, the rows of a relation begin with
what it accepts.  What all such beginnings show is right, and what the schema's own one leaves
open has two readings.  If arrows leave their types, the types of a rule show its reading. -/
theorem Schema.readingAt_of_compile {b : RuleBase} (h : s.compile recursive = .ok b) {i : Nat}
    {r : BinaryRule} (hr : b.binary[i]? = some r) :
    (s.DistinctRelations →
      (∀ k, b.reading? i = some k → s.readingAt recursive i = some k) ∧
      (b.reading? i = none → ∀ k, ∃ s' : Schema, s'.DistinctRelations ∧
        (∀ limits, s'.problems limits = s.problems limits) ∧
        s'.compile recursive = .ok b ∧ s'.readingAt recursive i = some k)) ∧
    (∀ k, (∀ types, types <+: b.accepted r.base → b.Admits r.base types →
        Reading.shown? types b.binary i = some k) →
      s.readingAt recursive i = some k) ∧
    (Reading.shown? (s.accepted r.base) b.binary i = none → ∀ k, ∃ s' : Schema,
      (∀ limits, s'.problems limits = s.problems limits) ∧
      s'.compile recursive = .ok b ∧ s'.readingAt recursive i = some k) ∧
    (s.ArrowsLeave → s.readingAt recursive i =
      some (if r.firstType = r.secondType then .conjunction else .join)) := by
  obtain ⟨order, horder, rfl⟩ := Schema.emission_of_compile h
  refine ⟨fun hdistinct => ?_, fun k hk => ?_, fun hnone k => ?_, fun hleave =>
    hleave.readingAt_eq horder hr⟩
  · have hreading : (s.ruleBase order).reading? i =
        Reading.shown? (s.accepted r.base) (s.ruleBase order).binary i := by
      rw [RuleBase.reading?, hr, ← hdistinct.accepted_eq order]
    rw [hreading]
    refine ⟨fun k hk => Schema.readingAt_of_shown? horder hr hk, fun hnone k => ?_⟩
    obtain ⟨s', hdistinct', hs'⟩ := Schema.exists_readingAt_eq horder hr hnone k
    exact ⟨s', hdistinct' hdistinct, hs'⟩
  · exact Schema.readingAt_of_shown? horder hr
      (hk _ (Schema.accepted_prefix s order r.base) (Schema.admits_accepted horder r.base))
  · obtain ⟨s', _, hs'⟩ := Schema.exists_readingAt_eq horder hr hnone k
    exact ⟨s', hs'⟩

/-- Folders lie in folders and in organizations. -/
def organizedFolders : Schema where
  types := [⟨"f", [⟨"p", [⟨"f", none⟩, ⟨"o", none⟩]⟩, ⟨"v", [⟨"u", none⟩]⟩],
      [⟨"w", .union [.name "v", .arrow "p" "w"]⟩]⟩,
    ⟨"o", [⟨"w", [⟨"u", none⟩]⟩], []⟩, ⟨"u", [], []⟩]

/-- The rules of organized folders. -/
def organizedFolderRules : RuleBase where
  restrictions := [⟨"f", "p", "f", none⟩, ⟨"f", "p", "o", none⟩, ⟨"f", "v", "u", none⟩,
    ⟨"o", "w", "u", none⟩]
  unary := [⟨"f", "v", "w"⟩]
  binary := [⟨"f", "w", "f", "p", "w"⟩, ⟨"o", "w", "f", "p", "w"⟩]

/-- Teams whose `r` lists the type of teams twice, and whose `p` asks twice for both `a` and `r`. -/
def doubledTeams : Schema where
  types := [⟨"t", [⟨"a", [⟨"t", none⟩]⟩, ⟨"r", [⟨"t", none⟩, ⟨"t", some "a"⟩]⟩],
    [⟨"p", .union [.intersection [.name "a", .name "r"], .intersection [.name "a", .name "r"]]⟩]⟩]

/-- The rules of doubled teams. -/
def doubledTeamRules : RuleBase where
  restrictions := [⟨"t", "a", "t", none⟩, ⟨"t", "r", "t", none⟩, ⟨"t", "r", "t", some "a"⟩]
  unary := []
  binary := [⟨"t", "a", "t", "r", "p"⟩, ⟨"t", "a", "t", "r", "p"⟩]

/-- In nested folders the inner folder is reached by a loop, so its rule can be read both ways,
and the rule of the intersection has a synthesized name and can be read one way only.  Where
folders lie in organizations too, the rule for organizations shows that its neighbour is that of
an arrow, whatever the schema.  The rules of doubled teams can be those of an arrow, as its
relation lists the type of teams twice.  The rule of a document's folder shows by its types. -/
theorem nestedFolders_readingAt :
    (nestedFolders.compile true = .ok nestedFolderRules ∧ nestedFolders.DistinctRelations ∧
      nestedFolders.readingAt true 1 = some .conjunction ∧
      ∀ k, ∃ s' : Schema, s'.DistinctRelations ∧
        (∀ limits, s'.problems limits = nestedFolders.problems limits) ∧
        s'.compile true = .ok nestedFolderRules ∧ s'.readingAt true 0 = some k) ∧
    (organizedFolders.compile true = .ok organizedFolderRules ∧
      ∀ s : Schema, s.compile true = .ok organizedFolderRules → s.readingAt true 0 = some .join) ∧
    (doubledTeams.compile = .ok doubledTeamRules ∧
      ∀ k, ∃ s' : Schema, (∀ limits, s'.problems limits = doubledTeams.problems limits) ∧
        s'.compile = .ok doubledTeamRules ∧ s'.readingAt false 1 = some k) ∧
    (sharedDocuments.compile = .ok sharedDocumentRules ∧ sharedDocuments.ArrowsLeave ∧
      sharedDocuments.readingAt false 0 = some .join) := by
  have hnested : nestedFolders.compile true = .ok nestedFolderRules := by cbv
  have hdistinct : nestedFolders.DistinctRelations := ⟨by decide, by decide⟩
  have hdoubled : doubledTeams.compile = .ok doubledTeamRules := by cbv
  have hshared : sharedDocuments.compile = .ok sharedDocumentRules := by cbv
  have hleave : sharedDocuments.ArrowsLeave := Schema.arrowsLeave_of_forall (by decide)
  refine ⟨⟨hnested, hdistinct, ?_, ?_⟩, ⟨by cbv, fun s hs => ?_⟩, ⟨hdoubled, ?_⟩,
    hshared, hleave, ?_⟩
  · exact ((Schema.readingAt_of_compile hnested rfl).1 hdistinct).1 .conjunction (by decide)
  · exact ((Schema.readingAt_of_compile hnested rfl).1 hdistinct).2 (by decide)
  · refine (Schema.readingAt_of_compile hs rfl).2.1 .join fun types hprefix hadmits => ?_
    have hother : "o" ∈ types :=
      hadmits ⟨"o", "w", "f", "p", "w"⟩ (by decide) rfl (by decide)
    have htypes : types ∈ [[], ["f"], ["f", "o"]] := (List.mem_inits _ _).mpr hprefix
    simp only [List.mem_cons, List.not_mem_nil, or_false] at htypes
    obtain rfl | rfl | rfl := htypes
    · cases hother
    · revert hother
      decide
    · decide
  · exact (Schema.readingAt_of_compile hdoubled rfl).2.2.1 (by decide)
  · have hjoin := (Schema.readingAt_of_compile (i := 0) hshared rfl).2.2.2 hleave
    rwa [if_neg (by decide)] at hjoin

/-- Those related by `a` to what `r` leads to. -/
def loopingTeams : Schema where
  types := [⟨"t", [⟨"a", [⟨"t", none⟩]⟩, ⟨"r", [⟨"t", none⟩]⟩], [⟨"p", .arrow "r" "a"⟩]⟩]

/-- Those related by both `a` and `r`. -/
def meetingTeams : Schema where
  types := [⟨"t", [⟨"a", [⟨"t", none⟩]⟩, ⟨"r", [⟨"t", none⟩]⟩],
    [⟨"p", .intersection [.name "a", .name "r"]⟩]⟩]

/-- The rules of both. -/
def teamRules : RuleBase where
  restrictions := [⟨"t", "a", "t", none⟩, ⟨"t", "r", "t", none⟩]
  unary := []
  binary := [⟨"t", "a", "t", "r", "p"⟩]

/-- Looping teams that declare `r` again, for users. -/
def redeclaredTeams : Schema where
  types := [⟨"t", [⟨"a", [⟨"t", none⟩]⟩, ⟨"r", [⟨"t", none⟩]⟩, ⟨"r", [⟨"u", none⟩]⟩],
    [⟨"p", .arrow "r" "a"⟩]⟩, ⟨"u", [], []⟩]

/-- Meeting teams whose `r` accepts users too. -/
def mixedTeams : Schema where
  types := [⟨"t", [⟨"a", [⟨"t", none⟩]⟩, ⟨"r", [⟨"t", none⟩, ⟨"u", none⟩]⟩],
    [⟨"p", .intersection [.name "a", .name "r"]⟩]⟩, ⟨"u", [], []⟩]

/-- The rules of both. -/
def mixedTeamRules : RuleBase where
  restrictions := [⟨"t", "a", "t", none⟩, ⟨"t", "r", "t", none⟩, ⟨"t", "r", "u", none⟩]
  unary := []
  binary := [⟨"t", "a", "t", "r", "p"⟩]

/-- No way to classify binary rules by the rule base alone is right for every schema, not even
for the rules whose relation accepts another type by the restriction table. -/
theorem not_exists_classification :
    (¬ ∃ classify : RuleBase → Nat → Reading,
      ∀ (s : Schema) (recursive : Bool) (b : RuleBase), s.problems {} = [] →
        s.compile recursive = .ok b → ∀ i < b.binary.length,
          s.readingAt recursive i = some (classify b i)) ∧
    ¬ ∃ classify : RuleBase → Nat → Reading,
      ∀ (s : Schema) (recursive : Bool) (b : RuleBase), s.problems {} = [] →
        s.compile recursive = .ok b → ∀ i r, b.binary[i]? = some r →
          (∃ type ∈ b.accepted r.base, type ≠ r.secondType) →
            s.readingAt recursive i = some (classify b i) := by
  have hloop : loopingTeams.readingAt false 0 = some .join := by cbv
  have hmeet : meetingTeams.readingAt false 0 = some .conjunction := by cbv
  have hredeclared : redeclaredTeams.readingAt false 0 = some .join := by cbv
  have hmixed : mixedTeams.readingAt false 0 = some .conjunction := by cbv
  constructor
  · rintro ⟨classify, h⟩
    have hjoin := h loopingTeams false teamRules (by decide) (by cbv) 0 (by decide)
    have hconjunction := h meetingTeams false teamRules (by decide) (by cbv) 0 (by decide)
    rw [hloop] at hjoin
    rw [hmeet, ← hjoin] at hconjunction
    cases hconjunction
  · rintro ⟨classify, h⟩
    have hforeign : ∃ type ∈ mixedTeamRules.accepted ⟨"t", "r"⟩, type ≠ "t" := by decide
    have hjoin := h redeclaredTeams false mixedTeamRules (by decide) (by cbv) 0 _ rfl hforeign
    have hconjunction := h mixedTeams false mixedTeamRules (by decide) (by cbv) 0 _ rfl hforeign
    rw [hredeclared] at hjoin
    rw [hmixed, ← hjoin] at hconjunction
    cases hconjunction

end Rebac
