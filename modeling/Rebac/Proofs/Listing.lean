import Rebac.Proofs.Emission
import Rebac.Proofs.Search

/-!
# Dependencies first

The walk through the memory lists each permission once, after the permissions it
needs.  Where permissions need each other in a circle they cannot all be first, so
what can be said of a listed permission and one it needs is that the needed one
stands before it or reaches it (`Schema.Lists`).

In the walk the permissions being listed stand on the path, and each of them reaches
whatever is still to be listed.  So a needed permission that is skipped because it is
on the path reaches the one that needs it.

The emission order joins the lists of all visits and leaves out what was emitted
before, which keeps these properties (`Schema.lists_emission`).
-/

namespace Rebac

/-- Permissions are listed once, and each after those it needs unless they reach it.
Without recursion none of them reaches itself. -/
structure Schema.Lists (s : Schema) (recursive : Bool) (order : List Member) : Prop where
  nodup : order.Nodup
  first : ∀ p ∈ order, ∀ q ∈ s.needs p, [q, p].Sublist order ∨ s.Reaches q p
  acyclic : recursive = false → ∀ m ∈ order, ¬ s.Reaches m m

theorem Schema.lists_nil (s : Schema) (recursive : Bool) : s.Lists recursive [] where
  nodup := List.nodup_nil
  first := by simp
  acyclic := by simp

theorem pair_sublist_append {α : Type} {a b : α} {l l' : List α} (ha : a ∈ l) (hb : b ∈ l') :
    [a, b].Sublist (l ++ l') :=
  (List.singleton_sublist.mpr ha).append (List.singleton_sublist.mpr hb)

/-! ## The walk -/

/-- The walk lists nothing twice, and nothing that is being listed. -/
theorem Memory.nodup_walk (memory : Memory) {path order : List Member} (todo : List Member)
    (horder : order.Nodup) (hpath : ∀ m ∈ path, m ∉ order) :
    (memory.walk path order todo).Nodup ∧ ∀ m ∈ path, m ∉ memory.walk path order todo := by
  fun_induction Memory.walk memory path order todo with
  | case1 path order => exact ⟨horder, hpath⟩
  | case2 path order n rest hskip ih => exact ih horder hpath
  | case3 path order n rest hnew ihneeds ih =>
      obtain ⟨hnpath, hnorder⟩ := not_or.mp hnew
      have hlong : ∀ m ∈ path ++ [n], m ∉ order := by
        intro m hm
        rcases List.mem_append.mp hm with hm | hm
        · exact hpath m hm
        · exact List.mem_singleton.mp hm ▸ hnorder
      obtain ⟨hnodup, hout⟩ := ihneeds horder hlong
      apply ih
      · have hn := hout n (List.mem_append_right _ (List.mem_singleton_self n))
        refine List.nodup_append.mpr ⟨hnodup, by simp, ?_⟩
        rintro m hm k hk rfl
        exact hn (List.mem_singleton.mp hk ▸ hm)
      · intro m hm hmem
        rcases List.mem_append.mp hmem with hmem | hmem
        · exact hout m (List.mem_append_left _ hm) hmem
        · exact hnpath (List.mem_singleton.mp hmem ▸ hm)

/-- Two memories are walked alike if this is so of what each permission needs. -/
theorem Memory.walk_congr {memory other : Memory}
    (hknows : ∀ n, memory.knows n = true → other.knows n = true →
      ∀ m ∈ memory.needs n, memory.knows m = true ∧ other.knows m = true)
    (hneeds : ∀ n, memory.knows n = true → other.knows n = true → ∀ path order,
      other.walk path order (memory.needs n) = other.walk path order (other.needs n))
    {path order todo : List Member}
    (htodo : ∀ m ∈ todo, memory.knows m = true ∧ other.knows m = true) :
    memory.walk path order todo = other.walk path order todo := by
  fun_induction Memory.walk memory path order todo with
  | case1 path order => rw [Memory.walk]
  | case2 path order n rest hskip ih =>
      rw [Memory.walk, if_pos hskip]
      exact ih fun m hm => htodo m (List.mem_cons_of_mem n hm)
  | case3 path order n rest hnew ihneeds ih =>
      obtain ⟨hn, hn'⟩ := htodo n List.mem_cons_self
      have hinner := ihneeds (hknows n hn hn')
      rw [Memory.walk, if_neg hnew, ← hneeds n hn hn', ← hinner]
      exact ih fun m hm => htodo m (List.mem_cons_of_mem n hm)

section Settled

variable {s : Schema} {memory : Memory}

theorem Memory.Settled.needs_eq (h : memory.Settled s []) {m : Member}
    (hm : memory.knows m = true) : memory.needs m = s.needs m := by
  rw [Memory.needs, h.get?_eq hm]
  rfl

/-- Needed permissions are listed first, unless they reach what needs them. -/
theorem Memory.Settled.walk_first (h : memory.Settled s []) {path order todo : List Member}
    (htodo : ∀ m ∈ todo, memory.knows m = true)
    (hpath : ∀ m ∈ path, ∀ n ∈ todo, s.Reaches m n)
    (horder : ∀ p ∈ order, ∀ q ∈ s.needs p, [q, p].Sublist order ∨ s.Reaches q p) :
    ∀ p ∈ memory.walk path order todo, ∀ q ∈ s.needs p,
      [q, p].Sublist (memory.walk path order todo) ∨ s.Reaches q p := by
  fun_induction Memory.walk memory path order todo with
  | case1 path order => exact horder
  | case2 path order n rest hskip ih =>
      exact ih (fun m hm => htodo m (List.mem_cons_of_mem n hm))
        (fun m hm k hk => hpath m hm k (List.mem_cons_of_mem n hk)) horder
  | case3 path order n rest hnew ihneeds ih =>
      have hn := htodo n List.mem_cons_self
      have hreach : ∀ m ∈ path, s.Reaches m n := fun m hm => hpath m hm n List.mem_cons_self
      -- Below `n` everything on the longer path reaches what `n` needs.
      have hlong : ∀ m ∈ path ++ [n], ∀ k ∈ memory.needs n, s.Reaches m k := by
        intro m hm k hk
        rw [h.needs_eq hn] at hk
        rcases List.mem_append.mp hm with hm | hm
        · exact (hreach m hm).tail hk
        · exact List.mem_singleton.mp hm ▸ .single hk
      have hinner := ihneeds (fun k hk => h.knows_of_mem_needs hk) hlong horder
      refine ih (fun m hm => htodo m (List.mem_cons_of_mem n hm))
        (fun m hm k hk => hpath m hm k (List.mem_cons_of_mem n hk)) ?_
      intro p hp q hq
      rcases List.mem_append.mp hp with hp | hp
      · exact (hinner p hp q hq).imp_left fun hbefore =>
          hbefore.trans (List.sublist_append_left _ _)
      · -- What `n` needs has just been listed, unless it is being listed itself.
        obtain rfl := List.mem_singleton.mp hp
        by_cases hqpath : q ∈ path ++ [p]
        · rcases List.mem_append.mp hqpath with hqpath | hqpath
          · exact .inr (hreach q hqpath)
          · obtain rfl := List.mem_singleton.mp hqpath
            exact .inr (.single hq)
        · rw [← h.needs_eq hn] at hq
          exact .inl (pair_sublist_append (Memory.mem_walk hq hqpath) (List.mem_singleton_self p))

/-- The walk is the same in every settled memory that knows what is to be listed. -/
theorem Memory.Settled.walk_eq {other : Memory} (h : memory.Settled s []) (h' : other.Settled s [])
    (path order : List Member) {todo : List Member} (htodo : ∀ m ∈ todo, memory.knows m = true)
    (htodo' : ∀ m ∈ todo, other.knows m = true) :
    memory.walk path order todo = other.walk path order todo := by
  have hneeds : ∀ {n : Member}, memory.knows n = true → other.knows n = true →
      memory.needs n = other.needs n := fun hn hn' => by rw [h.needs_eq hn, h'.needs_eq hn']
  apply Memory.walk_congr
  · intro n hn hn' m hm
    exact ⟨h.knows_of_mem_needs hm, h'.knows_of_mem_needs (hneeds hn hn' ▸ hm)⟩
  · intro n hn hn' path order
    rw [hneeds hn hn']
  · exact fun m hm => ⟨htodo m hm, htodo' m hm⟩

end Settled

/-! ## Visits -/

/-- Between calls the memory of a resolver is sound. -/
def Resolver.Sound (r : Resolver) : Prop := r.memory.Sound r.schema r.recursive []

theorem Resolver.sound_fresh (s : Schema) (recursive : Bool) : Resolver.Sound ⟨s, recursive, []⟩ :=
  Memory.sound_nil s recursive []

/-- A visit leaves the resolver sound.  If it fails the memory is emptied. -/
theorem Resolver.Sound.order {r : Resolver} (h : r.Sound) (m : Member) : (r.order m).2.Sound := by
  rw [Resolver.order]
  split
  · exact Memory.sound_nil r.schema r.recursive []
  · rename_i memory hfollow
    exact (Memory.Sound.follow h hfollow).1

theorem Resolver.Sound.lists {r r' : Resolver} (h : r.Sound) {m : Member} {members : List Member}
    (hok : r.order m = (.ok members, r')) : r.schema.Lists r.recursive members := by
  have hvisit := Resolver.order_visited h.settled hok
  have hsound : r'.Sound := by simpa [hok] using h.order m
  rw [Resolver.order] at hok
  split at hok
  · cases hok
  · rename_i memory hfollow
    cases hok
    have htodo := Schema.knows_of_follow hfollow h.settled
    constructor
    · exact (memory.nodup_walk _ List.nodup_nil (by simp)).1
    · exact hvisit.settled.walk_first htodo (by simp) (by simp)
    · intro hrec n hn
      exact (hsound.grounded hrec).acyclic n (hvisit.knows n hn)

/-! ## The order of emission -/

/-- Of a further list only those are added that are not there yet.  A permission added
comes after those it needs, be they added with it or there before. -/
theorem Schema.Lists.append {s : Schema} {recursive : Bool} {emitted members : List Member}
    (h : s.Lists recursive emitted) (h' : s.Lists recursive members) :
    s.Lists recursive (emitted ++ members.filter (· ∉ emitted)) where
  nodup := by
    refine List.nodup_append.mpr ⟨h.nodup, h'.nodup.filter _, ?_⟩
    rintro m hm n hn rfl
    simpa [hm] using (List.mem_filter.mp hn).2
  first p hp q hq := by
    rcases List.mem_append.mp hp with hp | hp
    · exact (h.first p hp q hq).imp_left fun hbefore =>
        hbefore.trans (List.sublist_append_left _ _)
    · obtain ⟨hpmem, hpnew⟩ := List.mem_filter.mp hp
      refine (h'.first p hpmem q hq).imp_left fun hbefore => ?_
      by_cases hqold : q ∈ emitted
      · exact pair_sublist_append hqold hp
      · have hfresh := hbefore.filter (· ∉ emitted)
        rw [List.filter_eq_self.mpr (by simpa [hqold] using hpnew)] at hfresh
        exact hfresh.trans (List.sublist_append_right _ _)
  acyclic hrec m hm := by
    rcases List.mem_append.mp hm with hm | hm
    · exact h.acyclic hrec m hm
    · exact h'.acyclic hrec m (List.mem_filter.mp hm).1

theorem Resolver.Sound.emission_lists {r : Resolver} (h : r.Sound) {emitted order : List Member}
    {todo : List Member} (hemitted : r.schema.Lists r.recursive emitted)
    (hok : r.emission emitted todo = .ok order) : r.schema.Lists r.recursive order := by
  induction todo generalizing r emitted with
  | nil =>
      cases hok
      exact hemitted
  | cons m ms ih =>
      rw [Resolver.emission] at hok
      rcases horder : r.order m with ⟨answer, r'⟩
      rw [horder] at hok
      cases answer with
      | error e => cases hok
      | ok members =>
          have hsound : r'.Sound := by simpa [horder] using h.order m
          have hschema : r'.schema = r.schema := by rw [← r.schema_order m, horder]
          have hrec : r'.recursive = r.recursive := by rw [← r.recursive_order m, horder]
          have hnext := hemitted.append (h.lists horder)
          rw [← hschema, ← hrec] at hnext ⊢
          exact ih hsound hnext hok

/-- The order of emission lists each permission once, after those it needs. -/
theorem Schema.lists_emission {s : Schema} {recursive : Bool} {order : List Member}
    (h : s.emission recursive = .ok order) : s.Lists recursive order := by
  rw [Schema.emission] at h
  split at h
  · cases h
  · exact (Resolver.sound_fresh s recursive).emission_lists (s.lists_nil recursive) h

end Rebac
