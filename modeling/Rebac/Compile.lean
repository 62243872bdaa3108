import Rebac.Resolution.Resolver

/-!
# Compiling a schema

Every permission of every type is resolved, types and permissions by name, on
one resolver.  A permission reached through another one gives its rules where it
is first needed, ahead of the rules that use it, and never again.  The
restriction table does not depend on the permissions.

Synthesized names are told from declared ones by their separator, so no declared
name may hold it.  This is checked before anything else.
-/

namespace Rebac

/-- Whether a name holds the character reserved for synthesized names. -/
def isReserved (name : String) : Bool := name.toList.contains separator

/-- The names a type declares: its own, then its relations, then its
permissions. -/
def ObjectType.declaredNames (t : ObjectType) : List String :=
  t.name :: (t.relations.map (·.name) ++ t.permissions.map (·.name))

/-- The first reserved name that the schema declares, types by name. -/
def Schema.reservedName? (s : Schema) : Option CompileError :=
  s.sortedTypes.findSome? fun t =>
    (t.declaredNames.find? isReserved).map (.reservedName t.name)

/-- The declared permissions in the order in which they are compiled. -/
def Schema.sortedMembers (s : Schema) : List Member :=
  s.sortedTypes.flatMap fun t => t.sortedPermissions.map fun p => ⟨t.name, p.name⟩

/-- Adds the rules of permissions to a rule base. -/
def RuleBase.extend (b : RuleBase) (r : Resolver) (members : List Member) : RuleBase :=
  { b with unary := b.unary ++ r.unaryOf members, binary := b.binary ++ r.binaryOf members }

/-- Resolves permissions in turn and adds to a rule base the rules of those that
were not `emitted` before. -/
def Resolver.emit (r : Resolver) (emitted : List Member) (b : RuleBase) :
    List Member → Except CompileError RuleBase
  | [] => .ok b
  | m :: ms =>
      match r.order m with
      | (.error e, _) => .error e
      | (.ok members, r') =>
          let fresh := members.filter (· ∉ emitted)
          r'.emit (emitted ++ fresh) (b.extend r' fresh) ms

/-- Compiles a schema into its rule base. -/
def Schema.compile (s : Schema) (recursive : Bool := false) : Except CompileError RuleBase :=
  match s.reservedName? with
  | some e => .error e
  | none =>
      Resolver.emit ⟨s, recursive, []⟩ [] ⟨s.restrictions, [], []⟩ s.sortedMembers

end Rebac
