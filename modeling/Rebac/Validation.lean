import Rebac.Compile

/-!
# Validation

Before a schema is compiled it is checked against limits and for declarations
that cannot work.  Validation goes through the types in order of declaration and
reports every problem it finds.
-/

namespace Rebac

/-- How large a schema may be. -/
structure Limits where
  /-- How many types a schema may declare. -/
  types : Nat := 50
  /-- How many relations a type may declare. -/
  relationsPerType : Nat := 30
  /-- How many permissions a type may declare. -/
  permissionsPerType : Nat := 30
  deriving Repr, DecidableEq, Inhabited

/-- Something wrong with a schema. -/
inductive Problem where
  /-- More types than allowed. -/
  | tooManyTypes (count limit : Nat)
  /-- More relations in a type than allowed. -/
  | tooManyRelations (type : String) (count limit : Nat)
  /-- More permissions in a type than allowed. -/
  | tooManyPermissions (type : String) (count limit : Nat)
  /-- A declared name holds the character of synthesized names. -/
  | reservedCharacter (name : String)
  /-- A relation and a permission of one type share a name. -/
  | nameConflict (type name : String)
  /-- A relation accepts subjects of a type that is not declared. -/
  | undefinedSubjectType (type relation subjectType : String)
  deriving Repr, DecidableEq

/-- That a count is over its limit, in words. -/
def overLimit (count limit : Nat) : String :=
  toString count ++ " exceeds limit of " ++ toString limit

/-- The problem in words. -/
def Problem.message : Problem → String
  | .tooManyTypes count limit => "too many types: " ++ overLimit count limit
  | .tooManyRelations type count limit =>
      "too many relations in type '" ++ type ++ "': " ++ overLimit count limit
  | .tooManyPermissions type count limit =>
      "too many permissions in type '" ++ type ++ "': " ++ overLimit count limit
  | .reservedCharacter name => "name '" ++ name ++ "' contains the reserved character '$'"
  | .nameConflict type name =>
      "'" ++ name ++ "' is declared as both a relation and a permission on type '" ++ type ++ "'"
  | .undefinedSubjectType type relation subjectType =>
      "relation '" ++ relation ++ "' on type '" ++ type ++ "' references undefined type '" ++
        subjectType ++ "'"

/-- A problem if a count is over its limit. -/
def checkLimit (problem : Nat → Nat → Problem) (count limit : Nat) : List Problem :=
  if limit < count then [problem count limit] else []

/-- The problems of a relation: a permission of the same name, then its subjects
of undeclared types. -/
def Relation.problems (s : Schema) (t : ObjectType) (r : Relation) : List Problem :=
  (if (t.permission? r.name).isSome then [.nameConflict t.name r.name] else []) ++
    r.subjects.filterMap fun u =>
      if (s.type? u.type).isNone then some (.undefinedSubjectType t.name r.name u.type) else none

/-- The problems of a type: its size, its names, then its relations. -/
def ObjectType.problems (s : Schema) (limits : Limits) (t : ObjectType) : List Problem :=
  checkLimit (.tooManyRelations t.name) t.relations.length limits.relationsPerType ++
    checkLimit (.tooManyPermissions t.name) t.permissions.length limits.permissionsPerType ++
    (t.declaredNames.filter isReserved).map .reservedCharacter ++
    t.relations.flatMap (Relation.problems s t)

/-- Every problem of a schema, in the order found. -/
def Schema.problems (s : Schema) (limits : Limits) : List Problem :=
  checkLimit .tooManyTypes s.types.length limits.types ++
    s.types.flatMap (ObjectType.problems s limits)

end Rebac
