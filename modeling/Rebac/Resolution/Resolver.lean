import Rebac.Resolution.Step

/-!
# Resolving names

A name resolves to itself together with the rules that derive it.  A relation
needs no rules.  A permission needs its own rules and those of every permission
it refers to, directly or not.

The resolver follows the steps of a permission and enters each needed
permission before it goes on.  A finished permission is kept in a *memory* with
its own rules and the permissions they refer to, so it is entered once.  The
permissions entered and not finished form the *path*, outermost first.  A needed
permission on the path closes a cycle.  If recursion is allowed the cycle is
left to whoever evaluates the rules, and otherwise it is an error.

Entering a permission puts it on the path, and only declared permissions that
are not on the path are entered.  So the number of declared permissions off the
path shrinks, and following ends.

After a failure the memory is emptied.  Under recursion a finished permission
may rely on one that was still on the path when the failure came.
-/

namespace Rebac

/-! ## Memory -/

/-- The rules a permission derives itself, and what they rely on. -/
structure Expansion where
  /-- Its own unary rules. -/
  unary : List UnaryRule
  /-- Its own binary rules. -/
  binary : List BinaryRule
  /-- The permissions its expression refers to, in order, with repetitions. -/
  needs : List Member
  deriving Repr, DecidableEq

/-- What the steps of a permission leave in the memory. -/
def Expansion.ofSteps (s : Schema) (steps : List Step) : Expansion :=
  ⟨Step.unaryRules steps, Step.binaryRules steps, Step.permissions s steps⟩

/-- The finished permissions, the latest first. -/
abbrev Memory := List (Member × Expansion)

/-- What is kept of a permission, if it is finished. -/
def Memory.get? (memory : Memory) (m : Member) : Option Expansion := List.lookup m memory

/-- Whether a permission is finished. -/
def Memory.knows (memory : Memory) (m : Member) : Bool := (memory.get? m).isSome

/-- The permissions that a finished permission refers to. -/
def Memory.needs (memory : Memory) (m : Member) : List Member :=
  match memory.get? m with
  | some x => x.needs
  | none => []

/-! ## Following steps -/

/-- What a needed name calls for. -/
inductive Verdict where
  /-- Nothing: it is a relation, or taken care of. -/
  | settled
  /-- It cannot resolve. -/
  | fail (error : CompileError)
  /-- It is a permission that has to be entered. -/
  | enter (owner : ObjectType) (p : Permission)
  deriving Repr, DecidableEq

/-- The cycle that a permission on the path closes. -/
def cycleFrom (path : List Member) (m : Member) : List Member :=
  path.dropWhile (· ≠ m) ++ [m]

/-- Judges a needed name against the schema, the memory and the path. -/
def Schema.judge (s : Schema) (recursive : Bool) (path : List Member) (memory : Memory)
    (target origin : Member) : Verdict :=
  match s.find target with
  | .noType => .fail (.undefinedType target.type origin)
  | .noName => .fail (.undefinedReference target origin)
  | .relation _ => .settled
  | .permission t p =>
      if memory.knows target then .settled
      else if target ∈ path then
        if recursive then .settled else .fail (.cycle target (cycleFrom path target))
      else .enter t p

/-- Only a permission that is declared, not finished and off the path is
entered. -/
theorem Schema.of_judge_enter {s : Schema} {recursive : Bool} {path : List Member}
    {memory : Memory} {target origin : Member} {t : ObjectType} {p : Permission}
    (h : s.judge recursive path memory target origin = .enter t p) :
    s.find target = .permission t p ∧ memory.knows target = false ∧ target ∉ path := by
  unfold Schema.judge at h
  split at h
  · simp at h
  · simp at h
  · simp at h
  · rename_i u q hfind
    split at h
    · simp at h
    · rename_i hknown
      split at h
      · split at h <;> simp at h
      · rename_i hpath
        simp only [Verdict.enter.injEq] at h
        obtain ⟨rfl, rfl⟩ := h
        exact ⟨hfind, by simpa using hknown, hpath⟩

/-- How many of the members are not on the path. -/
def offPath (members path : List Member) : Nat := (members.filter (· ∉ path)).length

/-- A longer path leaves no more members off it. -/
theorem offPath_append_le (members path : List Member) (m : Member) :
    offPath members (path ++ [m]) ≤ offPath members path := by
  unfold offPath
  rw [← List.countP_eq_length_filter, ← List.countP_eq_length_filter]
  apply List.countP_mono_left
  intro x _ hx
  simp only [List.mem_append, List.mem_singleton, decide_eq_true_eq, not_or] at hx
  simpa using hx.1

/-- Putting one of the members on the path leaves fewer off it. -/
theorem offPath_append_lt {members path : List Member} {m : Member}
    (hm : m ∈ members) (hp : m ∉ path) :
    offPath members (path ++ [m]) < offPath members path := by
  induction members with
  | nil => simp at hm
  | cons x xs ih =>
      have hle := offPath_append_le xs path m
      unfold offPath at ih hle ⊢
      simp only [List.filter_cons, List.mem_append, List.mem_singleton, not_or,
        decide_eq_true_eq] at ih hle ⊢
      by_cases hx : x = m
      · subst hx
        simp only [hp, not_false_eq_true, not_true_eq_false, and_false, ↓reduceIte,
          List.length_cons]
        omega
      · have hmem : m ∈ xs := by simpa [Ne.symm hx] using hm
        have hlt := ih hmem
        by_cases hxp : x ∈ path
        · simpa [hxp] using hlt
        · simpa [hxp, hx] using hlt

/-- Follows steps and enters the permissions they need.  Gives the memory with
all that was finished on the way. -/
def Schema.follow (s : Schema) (recursive : Bool) (path : List Member) (memory : Memory) :
    List Step → Except CompileError Memory
  | [] => .ok memory
  | .need target origin :: rest =>
      match _h : s.judge recursive path memory target origin with
      | .settled => s.follow recursive path memory rest
      | .fail e => .error e
      | .enter t p =>
          match s.follow recursive (path ++ [target]) memory (p.expr.steps t p.name) with
          | .error e => .error e
          | .ok memory' =>
              s.follow recursive path
                ((target, Expansion.ofSteps s (p.expr.steps t p.name)) :: memory') rest
  | .copy _ :: rest => s.follow recursive path memory rest
  | .hop _ :: rest => s.follow recursive path memory rest
  | .meet _ :: rest => s.follow recursive path memory rest
  | .reject e :: _ => .error e
termination_by steps => (offPath s.permissionMembers path, steps.length)
decreasing_by
  all_goals first
    | exact Prod.Lex.right _ (by simp)
    | (obtain ⟨hfind, _, hpath⟩ := Schema.of_judge_enter _h
       exact Prod.Lex.left _ _ (offPath_append_lt (Schema.mem_permissionMembers hfind) hpath))

/-! ## Dependencies first -/

/-- A permission in the memory is one of its keys. -/
theorem Memory.mem_keys_of_needs_ne_nil {memory : Memory} {m : Member}
    (h : memory.needs m ≠ []) : m ∈ memory.map Prod.fst := by
  induction memory with
  | nil => exact absurd rfl h
  | cons x xs ih =>
      by_cases hx : m = x.1
      · simp [hx]
      · have hget : Memory.get? (x :: xs) m = Memory.get? xs m := by
          have hb : (m == x.1) = false := by simpa using hx
          unfold Memory.get?
          rw [List.lookup_cons, hb]
        unfold Memory.needs at h ih
        rw [hget] at h
        exact List.mem_cons_of_mem _ (ih h)

/-- Lists permissions after the permissions they need, and each of them once.
Those already in `order` or on the path of those being listed are left out. -/
def Memory.walk (memory : Memory) (path order : List Member) : List Member → List Member
  | [] => order
  | m :: rest =>
      if m ∈ path ∨ m ∈ order then memory.walk path order rest
      else memory.walk path (memory.walk (path ++ [m]) order (memory.needs m) ++ [m]) rest
termination_by todo => (offPath (memory.map Prod.fst) path, todo.length)
decreasing_by
  · exact Prod.Lex.right _ (by simp)
  · rename_i hm
    by_cases hn : memory.needs m = []
    · have hle := offPath_append_le (memory.map Prod.fst) path m
      rcases Nat.lt_or_eq_of_le hle with hlt | heq
      · exact Prod.Lex.left _ _ hlt
      · rw [heq, hn]
        exact Prod.Lex.right _ (by simp)
    · exact Prod.Lex.left _ _
        (offPath_append_lt (Memory.mem_keys_of_needs_ne_nil hn) (fun h => hm (Or.inl h)))
  · exact Prod.Lex.right _ (by simp)

/-! ## Resolvers -/

/-- A schema being resolved, and what has been finished of it. -/
structure Resolver where
  schema : Schema
  recursive : Bool
  memory : Memory := []
  deriving Repr, DecidableEq

/-- The permissions that the rules of a name come from, each after those it
refers to and listed once, together with the resolver afterwards. -/
def Resolver.order (r : Resolver) (m : Member) : Except CompileError (List Member) × Resolver :=
  match r.schema.follow r.recursive [] r.memory [.need m m] with
  | .error e => (.error e, { r with memory := [] })
  | .ok memory =>
      (.ok (memory.walk [] [] (Step.permissions r.schema [.need m m])), { r with memory := memory })

/-- The own unary rules of finished permissions, one after the other. -/
def Resolver.unaryOf (r : Resolver) (members : List Member) : List UnaryRule :=
  (members.filterMap r.memory.get?).flatMap Expansion.unary

/-- The own binary rules of finished permissions, one after the other. -/
def Resolver.binaryOf (r : Resolver) (members : List Member) : List BinaryRule :=
  (members.filterMap r.memory.get?).flatMap Expansion.binary

/-- A resolved name: what to call it, and the rules that derive it. -/
structure Resolution where
  /-- The name by which other rules refer to it. -/
  identity : String
  /-- The unary rules. -/
  unary : List UnaryRule
  /-- The binary rules. -/
  binary : List BinaryRule
  deriving Repr, DecidableEq

/-- Resolves a name into every rule needed to derive it. -/
def Resolver.resolve (r : Resolver) (m : Member) : Except CompileError Resolution × Resolver :=
  match r.order m with
  | (.error e, r') => (.error e, r')
  | (.ok members, r') => (.ok ⟨m.name, r'.unaryOf members, r'.binaryOf members⟩, r')

/-- Resolves several names in turn, each with what the earlier ones left. -/
def Resolver.resolveAll (r : Resolver) : List Member → List (Except CompileError Resolution)
  | [] => []
  | m :: ms =>
      let (answer, r') := r.resolve m
      answer :: r'.resolveAll ms

end Rebac
