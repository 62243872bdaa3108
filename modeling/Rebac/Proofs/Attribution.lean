import Rebac.Proofs.Enumeration

/-!
# Every rule belongs to one permission

The head of a rule tells where the rule comes from.  Its type declares the permission, and its name
is the name of the permission or of an operand inside it, which starts with the permission and a
separator.  No declared name holds a separator, so the name before the first one is the permission,
and no other permission of the schema has the rule, not even one that lookups do not find.

A synthesized name is nobody else's either.  It is not declared, and what uses it is the
intersection it was synthesized for, a part of the same permission (`Expr.Expands.operand_of_ne`).
-/

namespace Rebac

/-! ## Rules of either kind -/

/-- A rule of either kind. -/
abbrev Rule := UnaryRule ⊕ BinaryRule

/-- The member that a rule derives. -/
def Rule.head : Rule → Member
  | .inl r => ⟨r.type, r.derived⟩
  | .inr r => ⟨r.secondType, r.derived⟩

/-- The rules of a rule base, the unary ones first. -/
def RuleBase.rules (b : RuleBase) : List Rule := b.unary.map .inl ++ b.binary.map .inr

theorem RuleBase.inr_mem_rules {b : RuleBase} {r : BinaryRule} :
    .inr r ∈ b.rules ↔ r ∈ b.binary := by
  simp [RuleBase.rules]

variable {s : Schema} {recursive : Bool} {order : List Member} {b : RuleBase} {rule : Rule}

/-- A rule base lists the own rules of permissions. -/
theorem Schema.mem_rules_ruleBase :
    rule ∈ (s.ruleBase order).rules ↔ ∃ m ∈ order, rule ∈ s.ownRules m := by
  simp only [RuleBase.rules, List.mem_append, List.mem_map, Schema.ruleBase, List.mem_flatMap,
    Schema.unaryRules_ownSteps, Schema.binaryRules_ownSteps, List.mem_filterMap]
  cases rule with
  | inl r => simp
  | inr r => simp

/-! ## The head of a rule -/

/-- What a part takes itself is derived for the name of the part. -/
theorem Expr.Takes.head_eq {t : ObjectType} {d : String} {x : Expr} {step : Step}
    (h : x.Takes t d step) (hrule : step.rule? = some rule) : rule.head = ⟨t.name, d⟩ := by
  cases h <;> cases hrule <;> rfl

/-- The rules of an expression are those that its parts take. -/
theorem Expr.mem_rules_iff {t : ObjectType} {e : Expr} {d : String} :
    rule ∈ e.rules t d ↔ ∃ π d' x step, e.Expands d π d' x ∧ x.Takes t d' step ∧
      step.rule? = some rule := by
  rw [← Expr.filterMap_rule?_steps, List.mem_filterMap]
  simp only [Expr.mem_steps_iff]
  constructor
  · rintro ⟨step, ⟨π, d', x, hx, htakes⟩, hrule⟩
    exact ⟨π, d', x, step, hx, htakes, hrule⟩
  · rintro ⟨π, d', x, step, hx, htakes, hrule⟩
    exact ⟨step, ⟨π, d', x, hx, htakes⟩, hrule⟩

/-- The head of a rule is the name of a part, on the type of the expression. -/
theorem Expr.expands_head {t : ObjectType} {e : Expr} {d : String} (h : rule ∈ e.rules t d) :
    rule.head.type = t.name ∧ ∃ π x, e.Expands d π rule.head.name x := by
  obtain ⟨π, d', x, step, hx, htakes, hrule⟩ := Expr.mem_rules_iff.mp h
  have hhead := htakes.head_eq hrule
  rw [hhead]
  exact ⟨rfl, π, x, hx⟩

/-- The head of a rule leads back to the permission. -/
theorem Expr.eq_of_mem_rules {t : ObjectType} {p : Permission} (hp : isReserved p.name = false)
    (h : rule ∈ p.expr.rules t p.name) :
    t.name = rule.head.type ∧ p.name = baseName rule.head.name := by
  obtain ⟨htype, π, x, hx⟩ := Expr.expands_head h
  exact ⟨htype.symm, (hx.baseName_eq hp).symm⟩

/-! ## Operands -/

/-- A part with a name of its own is a composite operand, or comes from one through unions. -/
theorem Expr.Expands.operand_of_ne {d d' : String} {e x : Expr} {π : List Turn}
    (h : e.Expands d π d' x) (hne : d' ≠ d) : ∃ π' d'' f f' g i,
      e.Expands d π' d'' (.intersection [f, f']) ∧ [f, f'][i]? = some g ∧ g.IsComposite ∧
        d' = operandName d'' i := by
  induction h with
  | here => exact absurd rfl hne
  | union hi _ ih =>
      obtain ⟨π', d'', f, f', g, i, hmeet, hg, hcomp, hd'⟩ := ih hne
      exact ⟨_, d'', f, f', g, i, .union hi hmeet, hg, hcomp, hd'⟩
  | @meet d d' e f g x i π hi hg _ ih =>
      by_cases hd : d' = operandName d i
      · exact ⟨[], d, e, f, g, i, .here, hi, hg, hd⟩
      · obtain ⟨π', d'', f, f', g', j, hmeet, hg', hcomp, hd'⟩ := ih hd
        exact ⟨_, d'', f, f', g', j, .meet hi hg hmeet, hg', hcomp, hd'⟩

/-- A head with a name of its own is reserved. -/
theorem Expr.isReserved_head {t : ObjectType} {e : Expr} {d : String} (h : rule ∈ e.rules t d)
    (hne : rule.head.name ≠ d) : isReserved rule.head.name = true := by
  obtain ⟨_, π, x, hx⟩ := Expr.expands_head h
  obtain ⟨π', d', f, f', g, i, _, _, _, hname⟩ := hx.operand_of_ne hne
  rw [hname]
  exact isReserved_operandName d' i

theorem operandName_ne (d : String) (i : Nat) : operandName d i ≠ d := by
  intro h
  have hlength := congrArg (fun n => n.toList.length) h
  simp [operandName_toList] at hlength

/-- The intersection that a name was synthesized for uses it, on the type of the expression. -/
theorem Expr.exists_rule_using {t : ObjectType} {e : Expr} {d : String} (h : rule ∈ e.rules t d)
    (hne : rule.head.name ≠ d) : ∃ u : BinaryRule, .inr u ≠ rule ∧ .inr u ∈ e.rules t d ∧
      (⟨u.firstType, u.first⟩ = rule.head ∨ ⟨u.secondType, u.second⟩ = rule.head) := by
  obtain ⟨htype, π, x, hx⟩ := Expr.expands_head h
  obtain ⟨π', d', f, f', g, i, hmeet, hi, hg, hname⟩ := hx.operand_of_ne hne
  have hhead : rule.head = ⟨t.name, operandName d' i⟩ := by rw [← hname, ← htype]
  refine ⟨_, ?_, Expr.mem_rules_iff.mpr ⟨π', d', _, _, hmeet, .meet, rfl⟩, ?_⟩
  · -- The two rules derive different names.
    intro heq
    rw [← heq] at hname
    exact operandName_ne d' i hname.symm
  · rw [hhead]
    rcases pair_getElem?_eq_some hi with ⟨rfl, rfl⟩ | ⟨rfl, rfl⟩
    · exact .inl (by rw [Expr.operandIdentity_of_isComposite hg])
    · exact .inr (by rw [Expr.operandIdentity_of_isComposite hg])

/-! ## Attribution -/

/-- Every rule of a compiled schema belongs to one permission, which its head shows: on the type of
the head, the name up to the first separator is found as a permission, the rule is among the rules
of that permission, and among those of no permission that is declared elsewhere or otherwise named.
If the head is synthesized, no type, relation or permission has its name, and another rule of the
same permission uses it on the type. -/
theorem Schema.rule_of_one_permission (h : s.compile recursive = .ok b) (hrule : rule ∈ b.rules) :
    ∃ t p, s.find ⟨rule.head.type, baseName rule.head.name⟩ = .permission t p ∧
      rule ∈ p.expr.rules t p.name ∧
      (∀ t' ∈ s.types, ∀ q ∈ t'.permissions, rule ∈ q.expr.rules t' q.name →
        t'.name = rule.head.type ∧ q.name = baseName rule.head.name) ∧
      (rule.head.name ≠ baseName rule.head.name →
        (∀ t' ∈ s.types, rule.head.name ∉ t'.declaredNames) ∧
          ∃ u ∈ b.binary, .inr u ≠ rule ∧ .inr u ∈ p.expr.rules t p.name ∧
            (⟨u.firstType, u.first⟩ = rule.head ∨ ⟨u.secondType, u.second⟩ = rule.head)) := by
  obtain ⟨order, horder, rfl⟩ := Schema.emission_of_compile h
  have hplain : ∀ t ∈ s.types, ∀ q ∈ t.permissions, isReserved q.name = false := by
    intro t ht q hq
    exact Schema.not_isReserved_of_emission horder ht (ObjectType.name_mem_declaredNames hq)
  obtain ⟨m, hm, hown⟩ := Schema.mem_rules_ruleBase.mp hrule
  obtain ⟨t, p, hfind⟩ := (Schema.emission_emits horder).isPermission m hm
  have hrules : s.ownRules m = p.expr.rules t p.name := by rw [Schema.ownRules, hfind]
  rw [hrules] at hown
  obtain ⟨ht, htname, hp, hpname⟩ := Schema.of_find_permission hfind
  obtain ⟨htype, hbase⟩ := Expr.eq_of_mem_rules (hplain t ht p hp) hown
  refine ⟨t, p, ?_, hown, ?_, ?_⟩
  · rw [← htype, ← hbase, htname, hpname]
    exact hfind
  · intro t' ht' q hq
    exact Expr.eq_of_mem_rules (hplain t' ht' q hq)
  · intro hne
    rw [← hbase] at hne
    obtain ⟨u, hother, hu, huses⟩ := Expr.exists_rule_using hown hne
    refine ⟨?_, u, ?_, hother, hu, huses⟩
    · intro t' ht' hdeclared
      have hplain' := Schema.not_isReserved_of_emission horder ht' hdeclared
      rw [Expr.isReserved_head hown hne] at hplain'
      cases hplain'
    · rw [← RuleBase.inr_mem_rules, Schema.mem_rules_ruleBase]
      exact ⟨m, hm, hrules ▸ hu⟩

/-- Tickets `t` that are printed, `p`, and queued, `q`, by the same checks, and users `u` that are
printed too. -/
def checkedTickets : Schema where
  types := [⟨"t", [⟨"a", [⟨"u", none⟩]⟩, ⟨"b", [⟨"u", none⟩]⟩, ⟨"c", [⟨"u", none⟩]⟩],
      [⟨"p", .intersection [.intersection [.name "a", .union [.name "b", .name "c"]], .name "c"]⟩,
        ⟨"q", .intersection [.intersection [.name "a", .union [.name "b", .name "c"]], .name "c"]⟩]⟩,
    ⟨"u", [⟨"b", [⟨"u", none⟩]⟩], [⟨"p", .intersection [.name "b", .union [.name "b"]]⟩]⟩]

/-- The rules of checked tickets. -/
def checkedTicketRules : RuleBase where
  restrictions := [⟨"t", "a", "u", none⟩, ⟨"t", "b", "u", none⟩, ⟨"t", "c", "u", none⟩,
    ⟨"u", "b", "u", none⟩]
  unary := [⟨"t", "b", "p$0$1"⟩, ⟨"t", "c", "p$0$1"⟩, ⟨"t", "b", "q$0$1"⟩, ⟨"t", "c", "q$0$1"⟩,
    ⟨"u", "b", "p$1"⟩]
  binary := [⟨"t", "a", "t", "p$0$1", "p$0"⟩, ⟨"t", "p$0", "t", "c", "p"⟩,
    ⟨"t", "a", "t", "q$0$1", "q$0"⟩, ⟨"t", "q$0", "t", "c", "q"⟩, ⟨"u", "b", "u", "p$1", "p"⟩]

/-- A rule for an operand of an operand of `p` belongs to `p` on tickets, and a rule of `p` uses
what it derives. -/
theorem checkedTickets_rule : checkedTickets.compile = .ok checkedTicketRules ∧
    .inl ⟨"t", "b", "p$0$1"⟩ ∈ checkedTicketRules.rules ∧
    ∃ t p, checkedTickets.find ⟨"t", "p"⟩ = .permission t p ∧
      .inl ⟨"t", "b", "p$0$1"⟩ ∈ p.expr.rules t p.name ∧
      ∃ u ∈ checkedTicketRules.binary, .inr u ∈ p.expr.rules t p.name ∧
        ((⟨u.firstType, u.first⟩ : Member) = ⟨"t", "p$0$1"⟩ ∨
          (⟨u.secondType, u.second⟩ : Member) = ⟨"t", "p$0$1"⟩) := by
  have h : checkedTickets.compile = .ok checkedTicketRules := by cbv
  have hrule : .inl ⟨"t", "b", "p$0$1"⟩ ∈ checkedTicketRules.rules := List.mem_cons_self
  have hbase : baseName "p$0$1" = "p" := by cbv
  obtain ⟨t, p, hfind, hown, _, hsynthesized⟩ := Schema.rule_of_one_permission h hrule
  simp only [Rule.head, hbase] at hfind hsynthesized
  obtain ⟨_, u, hu, _, hsame, huses⟩ := hsynthesized (by decide)
  exact ⟨h, hrule, t, p, hfind, hown, u, hu, hsame, huses⟩

end Rebac
