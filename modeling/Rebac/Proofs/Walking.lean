import Mathlib.Logic.Relation
import Rebac.Proofs.Following

/-!
# The walk as a machine

`Memory.walk` lists permissions by recursion, and tells those being listed from those listed by two
lists.  Here the same work is done by a machine that marks every permission it comes to.  A marked
permission is not gone into again, whether it is listed or not.  Any other is marked, what it needs
is gone through, and then it is listed.

What is marked is what is being listed or listed already, so the machine lists what the walk lists
(`Memory.exists_walks`).
-/

namespace Rebac

/-- A permission being listed. -/
structure Walk.Call where
  key : Member
  /-- What its caller goes through next. -/
  rest : List Member
  deriving Repr, DecidableEq

/-- A state of the walk. -/
structure Walk where
  /-- The permissions that were come to. -/
  visited : List Member
  order : List Member
  /-- The calls under way, innermost first. -/
  calls : List Walk.Call
  todo : List Member
  deriving Repr, DecidableEq

/-- The state in which permissions are to be listed. -/
def Walk.start (roots : List Member) : Walk := ⟨[], [], [], roots⟩

/-- The next state, if there is one. -/
def Walk.step (memory : Memory) : Walk → Option Walk
  | ⟨visited, order, calls, m :: rest⟩ =>
      if m ∈ visited then some ⟨visited, order, calls, rest⟩
      else some ⟨visited ++ [m], order, ⟨m, rest⟩ :: calls, memory.needs m⟩
  | ⟨visited, order, call :: calls, []⟩ =>
      some ⟨visited, order ++ [call.key], calls, call.rest⟩
  | ⟨_, _, [], []⟩ => none

/-- The walk gets from one state to another. -/
def Memory.Walks (memory : Memory) : Walk → Walk → Prop :=
  Relation.ReflTransGen fun w w' => w.step memory = some w'

section Steps

variable {memory : Memory} {visited order rest : List Member} {calls : List Walk.Call} {m : Member}

theorem Walk.step_skip (h : m ∈ visited) :
    Walk.step memory ⟨visited, order, calls, m :: rest⟩ = some ⟨visited, order, calls, rest⟩ := by
  rw [Walk.step, if_pos h]

theorem Walk.step_enter (h : m ∉ visited) :
    Walk.step memory ⟨visited, order, calls, m :: rest⟩ =
      some ⟨visited ++ [m], order, ⟨m, rest⟩ :: calls, memory.needs m⟩ := by
  rw [Walk.step, if_neg h]

end Steps

/-- From every state the machine lists what the walk lists, with the calls that were under way left
as they were. -/
theorem Memory.exists_walks (memory : Memory) (path order : List Member) {visited : List Member}
    (todo : List Member) (calls : List Walk.Call)
    (hvisited : ∀ n, n ∈ visited ↔ n ∈ path ∨ n ∈ order) :
    ∃ visited',
      memory.Walks ⟨visited, order, calls, todo⟩ ⟨visited', memory.walk path order todo, calls, []⟩ ∧
        ∀ n, n ∈ visited' ↔ n ∈ path ∨ n ∈ memory.walk path order todo := by
  fun_induction Memory.walk memory path order todo generalizing visited calls with
  | case1 path order => exact ⟨visited, .refl, hvisited⟩
  | case2 path order m rest hskip ih =>
      obtain ⟨visited', hwalks, hvisited'⟩ := ih calls hvisited
      exact ⟨visited', .head (Walk.step_skip ((hvisited m).mpr hskip)) hwalks, hvisited'⟩
  | case3 path order m rest hnew ihneeds ih =>
      have hentered : ∀ n, n ∈ visited ++ [m] ↔ n ∈ path ++ [m] ∨ n ∈ order := by
        intro n
        rw [List.mem_append, List.mem_append, hvisited n]
        exact or_right_comm
      obtain ⟨inner, hinside, hinner⟩ := ihneeds (⟨m, rest⟩ :: calls) hentered
      -- The permission leaves what is being listed and is listed, so it stays marked.
      have hlisted : ∀ n, n ∈ inner ↔
          n ∈ path ∨ n ∈ memory.walk (path ++ [m]) order (memory.needs m) ++ [m] := by
        intro n
        rw [hinner n, List.mem_append, List.mem_append, or_right_comm, or_assoc]
      obtain ⟨visited', hwalks, hvisited'⟩ := ih calls hlisted
      have hunmarked : m ∉ visited := fun hm => hnew ((hvisited m).mp hm)
      exact ⟨visited', .head (Walk.step_enter hunmarked) ((hinside.tail rfl).trans hwalks),
        hvisited'⟩

/-- From the roots the machine lists what the walk lists, and is then at its end. -/
theorem Memory.exists_walks_start (memory : Memory) (roots : List Member) :
    ∃ visited, memory.Walks (.start roots) ⟨visited, memory.walk [] [] roots, [], []⟩ := by
  have hvisited : ∀ n : Member, n ∈ ([] : List Member) ↔ n ∈ [] ∨ n ∈ [] := by simp
  obtain ⟨visited, hwalks, _⟩ := memory.exists_walks [] [] roots [] hvisited
  exact ⟨visited, hwalks⟩

end Rebac
