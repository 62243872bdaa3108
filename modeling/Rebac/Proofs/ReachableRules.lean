import Rebac.Proofs.Enumeration
import Rebac.Proofs.SelfContained

/-!
# A resolution is the closure of a name

The rules of a resolved permission are the own rules of all permissions that it reaches
through references, itself included.  The walk comes to nothing else, since it only follows
needs, and needs are references (`Memory.Settled.reaches_of_mem_walk`).  It leaves nothing out,
since what it lists is closed (`Schema.Closed.mem_of_refers`).  The permission that was asked for
is listed last, when everything below it has been listed.

A relation has no rules, so its resolution is empty.
-/

namespace Rebac

/-! ## What a walk comes to -/

/-- What a walk lists was listed before, or is reached from something that was to be listed. -/
theorem Memory.Settled.reaches_of_mem_walk {s : Schema} {memory : Memory} (h : memory.Settled s [])
    {path order todo : List Member} (htodo : ∀ m ∈ todo, memory.knows m = true) {n : Member}
    (hn : n ∈ memory.walk path order todo) :
    n ∈ order ∨ ∃ m ∈ todo, Relation.ReflTransGen s.Refers m n := by
  fun_induction Memory.walk memory path order todo with
  | case1 path order => exact .inl hn
  | case2 path order k rest hskip ih =>
      rcases ih (fun m hm => htodo m (List.mem_cons_of_mem k hm)) hn with hn | ⟨m, hm, hreach⟩
      · exact .inl hn
      · exact .inr ⟨m, List.mem_cons_of_mem k hm, hreach⟩
  | case3 path order k rest hnew ihneeds ih =>
      have hk := htodo k List.mem_cons_self
      rcases ih (fun m hm => htodo m (List.mem_cons_of_mem k hm)) hn with hn | ⟨m, hm, hreach⟩
      · rcases List.mem_append.mp hn with hn | hn
        · -- Listed below `k`, so reached from something that `k` refers to.
          rcases ihneeds (fun m hm => h.knows_of_mem_needs hm) hn with hn | ⟨m, hm, hreach⟩
          · exact .inl hn
          · rw [h.needs_eq hk] at hm
            exact .inr ⟨k, List.mem_cons_self, .head (Schema.refers_of_mem_needs hm) hreach⟩
        · rw [List.mem_singleton.mp hn]
          exact .inr ⟨k, List.mem_cons_self, .refl⟩
      · exact .inr ⟨m, List.mem_cons_of_mem k hm, hreach⟩

/-- A walk that starts with one name ends with it. -/
theorem Memory.getLast?_walk_singleton (memory : Memory) (m : Member) :
    (memory.walk [] [] [m]).getLast? = some m := by
  rw [Memory.walk, if_neg (by simp), Memory.walk, List.getLast?_append]
  rfl

/-! ## What a closed list contains -/

section Closed

variable {s : Schema} {members : List Member} {m n : Member}

/-- The expressions of closed permissions are not rejected, so their references are needs. -/
theorem Schema.Closed.mem_needs_of_refers (h : s.Closed members) (hm : m ∈ members)
    (hrefers : s.Refers m n) : n ∈ s.needs m :=
  hrefers.mem_needs fun _ hreject => h.passed m hm _ hreject

theorem Schema.Closed.mem_of_refers (h : s.Closed members) (hm : m ∈ members)
    (hrefers : s.Refers m n) : n ∈ members := by
  obtain ⟨hperm, origin, hneed⟩ := Schema.mem_needs.mp (h.mem_needs_of_refers hm hrefers)
  rcases h.passed m hm _ hneed with hrel | ⟨_, hmem⟩
  · exact absurd hrel (Schema.not_isRelation_of_isPermission hperm)
  · exact hmem

theorem Schema.Closed.mem_of_reaches (h : s.Closed members) (hm : m ∈ members)
    (hreach : Relation.ReflTransGen s.Refers m n) : n ∈ members := by
  induction hreach with
  | refl => exact hm
  | tail _ hrefers ih => exact h.mem_of_refers ih hrefers

end Closed

/-! ## The closure of a permission -/

/-- The order lists the permissions that `m` reaches, each once, `m` itself last, and each after
those it refers to unless they reach it. -/
structure Schema.ListsClosure (s : Schema) (m : Member) (order : List Member) : Prop where
  nodup : order.Nodup
  mem_iff : ∀ n, n ∈ order ↔ Relation.ReflTransGen s.Refers m n
  last : order.getLast? = some m
  first : ∀ p ∈ order, ∀ q, s.Refers p q → ¬ Relation.TransGen s.Refers q p → [q, p].Sublist order

/-- A sound resolver lists the closure of a permission, and nothing for a relation. -/
theorem Resolver.Sound.order_listsClosure {r : Resolver} (h : r.Sound) {m : Member}
    {members : List Member} (hok : (r.order m).1 = .ok members) :
    (r.schema.IsRelation m ∧ members = []) ∨
      (r.schema.IsPermission m ∧ r.schema.ListsClosure m members) := by
  obtain ⟨hclosed, hm⟩ := h.order_closed hok
  have hlists : r.schema.Lists r.recursive members := h.lists (Prod.ext hok rfl)
  rw [Resolver.order] at hok
  split at hok
  · cases hok
  · rename_i memory hfollow
    cases hok
    have hsettled := (h.follow hfollow).1.settled
    have hknows := Schema.knows_of_follow hfollow h.settled
    rcases hm with hrel | hm
    · left
      refine ⟨hrel, ?_⟩
      obtain ⟨d, hfind⟩ := hrel
      simp [Step.permissions, hfind, Memory.walk]
    · right
      obtain ⟨t, p, hfind⟩ := hclosed.isPermission m hm
      have htodo : Step.permissions r.schema [.need m m] = [m] := by
        simp [Step.permissions, hfind]
      rw [htodo] at hclosed hlists hm hknows ⊢
      refine ⟨⟨t, p, hfind⟩, hlists.nodup, ?_, memory.getLast?_walk_singleton m, ?_⟩
      · intro n
        constructor
        · intro hn
          rcases hsettled.reaches_of_mem_walk hknows hn with hn | ⟨k, hk, hreach⟩
          · cases hn
          · rwa [List.mem_singleton.mp hk] at hreach
        · exact hclosed.mem_of_reaches hm
      · intro k hk q hrefers hback
        rcases hlists.first k hk q (hclosed.mem_needs_of_refers hk hrefers) with hbefore | hreach
        · exact hbefore
        · exact absurd hreach.refers hback

/-- After any history of calls, a name that resolves keeps its name.  A relation resolves to no
rules, and a permission to the own rules of the permissions it reaches, itself included: each of
them once, the permission itself last, and each after those it refers to unless they refer back. -/
theorem Resolver.resolve_eq_closure {s : Schema} {recursive : Bool} {history : List Member}
    {m : Member} {answer : Resolution}
    (h : ((Resolver.after ⟨s, recursive, []⟩ history).resolve m).1 = .ok answer) :
    answer.identity = m.name ∧
      (s.IsRelation m → answer.unary = [] ∧ answer.binary = []) ∧
      (¬ s.IsRelation m → ∃ order, s.ListsClosure m order ∧
        answer.unary = (order.flatMap fun n => (s.ownRules n).filterMap Sum.getLeft?) ∧
        answer.binary = (order.flatMap fun n => (s.ownRules n).filterMap Sum.getRight?)) := by
  obtain ⟨hsound, hschema, _⟩ := (Resolver.sound_fresh s recursive).after history
  rw [hsound.resolve_eq, hschema] at h
  cases horder : ((Resolver.after ⟨s, recursive, []⟩ history).order m).1 with
  | error e =>
      rw [horder] at h
      cases h
  | ok members =>
      rw [horder] at h
      cases h
      have hclosure := hsound.order_listsClosure horder
      rw [hschema] at hclosure
      refine ⟨rfl, fun hrel => ?_, fun hrel => ?_⟩
      · rcases hclosure with ⟨_, rfl⟩ | ⟨hperm, _⟩
        · exact ⟨rfl, rfl⟩
        · exact absurd hrel (Schema.not_isRelation_of_isPermission hperm)
      · rcases hclosure with ⟨hrel', _⟩ | ⟨_, hlists⟩
        · exact absurd hrel' hrel
        · refine ⟨members, hlists, ?_, ?_⟩
          · simp only [Schema.ruleBase, Schema.unaryRules_ownSteps]
          · simp only [Schema.ruleBase, Schema.binaryRules_ownSteps]

/-- Those who may review a team, after a call for those who may edit it.  The two refer to each
other, and both are in the answer. -/
theorem reviewResolution_closure :
    ((Resolver.after ⟨pairedTeams, true, []⟩ [⟨"t", "e"⟩]).resolve ⟨"t", "r"⟩).1 =
        .ok ⟨"r", [⟨"t", "r", "e"⟩, ⟨"t", "l", "w"⟩, ⟨"t", "e", "r"⟩, ⟨"t", "w", "r"⟩], []⟩ ∧
      ∃ order, pairedTeams.ListsClosure ⟨"t", "r"⟩ order ∧
        [⟨"t", "r", "e"⟩, ⟨"t", "l", "w"⟩, ⟨"t", "e", "r"⟩, ⟨"t", "w", "r"⟩] =
          order.flatMap fun n => (pairedTeams.ownRules n).filterMap Sum.getLeft? := by
  have h : ((Resolver.after ⟨pairedTeams, true, []⟩ [⟨"t", "e"⟩]).resolve ⟨"t", "r"⟩).1 =
      .ok ⟨"r", [⟨"t", "r", "e"⟩, ⟨"t", "l", "w"⟩, ⟨"t", "e", "r"⟩, ⟨"t", "w", "r"⟩], []⟩ := by cbv
  have hperm : pairedTeams.IsPermission ⟨"t", "r"⟩ := ⟨_, _, rfl⟩
  obtain ⟨order, hlists, hunary, _⟩ := (Resolver.resolve_eq_closure h).2.2
    (fun hrel => Schema.not_isRelation_of_isPermission hperm hrel)
  exact ⟨h, order, hlists, hunary⟩

end Rebac
