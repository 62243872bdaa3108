import Rebac.Json.Value
import Rebac.Rule.Sql

/-!
# The output formats of a rule base

A rule base is printed as SQL, as one clause a line, or as a JSON object with a
list for each table.
-/

namespace Rebac

/-- How a rule base is printed. -/
inductive OutputFormat where
  | sql
  | log
  | json
  deriving Repr, DecidableEq, Inhabited

/-- The format of that name. -/
def OutputFormat.ofName? : String → Option OutputFormat
  | "sql" => some .sql
  | "log" => some .log
  | "json" => some .json
  | _ => none

/-- The clauses of a rule base: restrictions, then unary, then binary rules. -/
def RuleBase.clauses (b : RuleBase) : List String :=
  b.restrictions.map Restriction.text ++ b.unary.map UnaryRule.text ++
    b.binary.map BinaryRule.text

/-- A rule base as one clause a line. -/
def RuleBase.log (b : RuleBase) : String :=
  String.ofList (List.intercalate ['\n'] (b.clauses.map String.toList))

/-- A restriction as a JSON object. -/
def Restriction.json (r : Restriction) : Json :=
  .object [("resource_type", .string r.resourceType), ("relation", .string r.relation),
    ("subject_type", .string r.subjectType),
    ("subject_relation", r.subjectRelation.elim .null .string)]

/-- A unary rule as a JSON object. -/
def UnaryRule.json (r : UnaryRule) : Json :=
  .object [("resource_type", .string r.type), ("source_relation", .string r.source),
    ("derived_relation", .string r.derived)]

/-- A binary rule as a JSON object. -/
def BinaryRule.json (r : BinaryRule) : Json :=
  .object [("first_resource_type", .string r.firstType), ("first_relation", .string r.first),
    ("second_resource_type", .string r.secondType), ("second_relation", .string r.second),
    ("derived_relation", .string r.derived)]

/-- A rule base as a JSON object. -/
def RuleBase.json (b : RuleBase) : Json :=
  .object [("relation_type_restrictions", .array (b.restrictions.map Restriction.json)),
    ("unary_rules", .array (b.unary.map UnaryRule.json)),
    ("binary_rules", .array (b.binary.map BinaryRule.json))]

/-- A rule base as text in a format. -/
def RuleBase.render (b : RuleBase) : OutputFormat → String
  | .sql => b.sql
  | .log => b.log
  | .json => b.json.pretty

/-- A line that counts the rows of the three tables. -/
def RuleBase.summary (b : RuleBase) : String :=
  "schema ok: " ++ toString b.restrictions.length ++ " type restrictions, " ++
    toString b.unary.length ++ " unary rules, " ++ toString b.binary.length ++ " binary rules"

end Rebac
