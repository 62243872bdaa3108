import Rebac.Proofs.Listing

/-!
# A warm resolver answers like a fresh one

What a resolver finished in earlier calls, and whether they failed, cannot be told
from its answers.  A call fails where the search without a memory fails, and that does
not depend on the resolver.  A call that succeeds walks through a settled memory, which
has the same needs and the same rules as any other settled memory.

Soundness of the memory is what all calls preserve, so it holds after every history.
-/

namespace Rebac

variable {r : Resolver}

/-- A sound resolver lists what a fresh one lists, and fails as it does. -/
theorem Resolver.Sound.order_eq_fresh (h : r.Sound) (m : Member) :
    (r.order m).1 = (Resolver.order ⟨r.schema, r.recursive, []⟩ m).1 := by
  have hfresh := Resolver.sound_fresh r.schema r.recursive
  rw [Resolver.order, Resolver.order]
  cases hwarm : r.schema.follow r.recursive [] r.memory [.need m m] with
  | error e =>
      have herror := (hfresh.follow_eq_error_iff e).mpr ((h.follow_eq_error_iff e).mp hwarm)
      simp [herror]
  | ok memory =>
      obtain ⟨memory', hcold⟩ :=
        hfresh.exists_follow_eq_ok_iff.mpr (h.exists_follow_eq_ok_iff.mp ⟨memory, hwarm⟩)
      have hsettled := (h.follow hwarm).1.settled
      have hsettled' := (hfresh.follow hcold).1.settled
      have hwalk := hsettled.walk_eq hsettled' [] [] (Schema.knows_of_follow hwarm h.settled)
        (Schema.knows_of_follow hcold hfresh.settled)
      simp [hcold, hwalk]

/-- The answer of a sound resolver: the own rules of what it lists. -/
theorem Resolver.Sound.resolve_eq (h : r.Sound) (m : Member) :
    (r.resolve m).1 = (r.order m).1.map fun members =>
      ⟨m.name, (r.schema.ruleBase members).unary, (r.schema.ruleBase members).binary⟩ := by
  rw [Resolver.resolve]
  rcases horder : r.order m with ⟨answer, r'⟩
  cases answer with
  | error e => rfl
  | ok members =>
      have hvisit := Resolver.order_visited h.settled horder
      simp only [Resolver.unaryOf_eq hvisit.settled hvisit.knows,
        Resolver.binaryOf_eq hvisit.settled hvisit.knows]
      rfl

/-- A call leaves the resolver as a visit does. -/
theorem Resolver.resolve_snd (r : Resolver) (m : Member) : (r.resolve m).2 = (r.order m).2 := by
  rw [Resolver.resolve]
  split <;> simp_all

/-- The resolver after a history of calls. -/
def Resolver.after (r : Resolver) : List Member → Resolver
  | [] => r
  | m :: ms => (r.resolve m).2.after ms

/-- Whatever was called before, a resolver serves the schema it was made for, and its
memory is sound. -/
theorem Resolver.Sound.after (h : r.Sound) (history : List Member) :
    (r.after history).Sound ∧ (r.after history).schema = r.schema ∧
      (r.after history).recursive = r.recursive := by
  induction history generalizing r with
  | nil => exact ⟨h, rfl, rfl⟩
  | cons m ms ih =>
      have hnext : (r.resolve m).2.Sound := by
        rw [Resolver.resolve_snd]
        exact h.order m
      obtain ⟨hsound, hschema, hrec⟩ := ih hnext
      refine ⟨hsound, ?_, ?_⟩
      · rw [Resolver.after, hschema, Resolver.resolve_snd, Resolver.schema_order]
      · rw [Resolver.after, hrec, Resolver.resolve_snd, Resolver.recursive_order]

/-- After every history of calls, failed ones included, a call is answered as by a
resolver that was never called: with the same name and rules in the same order, or with
the same error. -/
theorem Resolver.resolve_after_history (s : Schema) (recursive : Bool) (history : List Member)
    (m : Member) : ((Resolver.after ⟨s, recursive, []⟩ history).resolve m).1 =
      (Resolver.resolve ⟨s, recursive, []⟩ m).1 := by
  have hfresh := Resolver.sound_fresh s recursive
  obtain ⟨hsound, hschema, hrec⟩ := hfresh.after history
  rw [hsound.resolve_eq, hfresh.resolve_eq, hsound.order_eq_fresh, hschema, hrec]

end Rebac
