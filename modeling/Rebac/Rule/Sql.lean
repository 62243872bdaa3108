import Rebac.Rule

/-!
# Rule bases as SQL

Each table that has rows becomes one `INSERT` statement, and statements are
separated by an empty line.  Every value is a string literal, in which a quote
is written twice.  A missing subject relation is the empty string.
-/

namespace Rebac

/-- A value as a string literal. -/
def Sql.literal (s : String) : List Char :=
  '\x27' :: (s.toList.flatMap (fun c => if c = '\x27' then ['\x27', '\x27'] else [c]) ++ ['\x27'])

/-- A row of values in parentheses. -/
def Sql.row (values : List String) : List Char :=
  '(' :: (List.intercalate ", ".toList (values.map Sql.literal) ++ [')'])

/-- The statement that fills a table, if there are rows. -/
def Sql.insert? (table : String) : List (List String) → Option (List Char)
  | [] => none
  | rows =>
      some ("INSERT INTO ".toList ++ table.toList ++ " VALUES\n".toList ++
        List.intercalate ",\n".toList (rows.map Sql.row) ++ [';'])

/-- The values of a restriction. -/
def Restriction.values (r : Restriction) : List String :=
  [r.resourceType, r.relation, r.subjectType, r.subjectRelation.getD ""]

/-- The values of a unary rule. -/
def UnaryRule.values (r : UnaryRule) : List String := [r.type, r.source, r.derived]

/-- The values of a binary rule. -/
def BinaryRule.values (r : BinaryRule) : List String :=
  [r.firstType, r.first, r.secondType, r.second, r.derived]

/-- The statements that fill the three tables. -/
def RuleBase.statements (b : RuleBase) : List (List Char) :=
  [Sql.insert? "type_restrictions" (b.restrictions.map Restriction.values),
    Sql.insert? "unary_rules" (b.unary.map UnaryRule.values),
    Sql.insert? "binary_rules" (b.binary.map BinaryRule.values)].filterMap id

/-- A rule base as SQL text. -/
def RuleBase.sql (b : RuleBase) : String :=
  String.ofList (List.intercalate "\n\n".toList b.statements)

end Rebac
