import Rebac.Proofs.JsonValues
import Rebac.Proofs.WireSchemas
import Rebac.Rule.Render

/-!
# Reading rule bases back from JSON

A rule base is written as an object with a list for each table.  `RuleBase.ofJson?` takes such a
value apart field by field, each field by its name, and `RuleBase.readJson` does so with the value
that stands in a text.  The subject relation of a restriction is a string or null, so a missing one
and an empty one are told apart.

A rule base nests three levels deep, so its text is read (`Json.readAll_pretty`), and what comes
back is the rule base (`RuleBase.json_reads_back`).
-/

namespace Rebac

/-! ## The reader -/

/-- The value of a member of an object. -/
def Json.field? (v : Json) (name : String) : Option Json :=
  match v with
  | .object ms => ms.lookup name
  | _ => none

/-- The string that a value is. -/
def Json.string? : Json → Option String
  | .string s => some s
  | _ => none

/-- The string that a value is, or nothing for null. -/
def Json.nullable? : Json → Option (Option String)
  | .null => some none
  | v => v.string?.map some

/-- The items of a list. -/
def Json.items? : Json → Option (List Json)
  | .array vs => some vs
  | _ => none

/-- The restriction that an object holds. -/
def Restriction.ofJson? (v : Json) : Option Restriction := do
  let resourceType ← (← v.field? "resource_type").string?
  let relation ← (← v.field? "relation").string?
  let subjectType ← (← v.field? "subject_type").string?
  let subjectRelation ← (← v.field? "subject_relation").nullable?
  some ⟨resourceType, relation, subjectType, subjectRelation⟩

/-- The unary rule that an object holds. -/
def UnaryRule.ofJson? (v : Json) : Option UnaryRule := do
  let type ← (← v.field? "resource_type").string?
  let source ← (← v.field? "source_relation").string?
  let derived ← (← v.field? "derived_relation").string?
  some ⟨type, source, derived⟩

/-- The binary rule that an object holds. -/
def BinaryRule.ofJson? (v : Json) : Option BinaryRule := do
  let firstType ← (← v.field? "first_resource_type").string?
  let first ← (← v.field? "first_relation").string?
  let secondType ← (← v.field? "second_resource_type").string?
  let second ← (← v.field? "second_relation").string?
  let derived ← (← v.field? "derived_relation").string?
  some ⟨firstType, first, secondType, second, derived⟩

/-- The rule base that an object holds. -/
def RuleBase.ofJson? (v : Json) : Option RuleBase := do
  let restrictions ← (← (← v.field? "relation_type_restrictions").items?).mapM Restriction.ofJson?
  let unary ← (← (← v.field? "unary_rules").items?).mapM UnaryRule.ofJson?
  let binary ← (← (← v.field? "binary_rules").items?).mapM BinaryRule.ofJson?
  some ⟨restrictions, unary, binary⟩

/-- The rule base that a JSON text holds. -/
def RuleBase.readJson (text : String) : Option RuleBase :=
  (Json.readAll Json.value text).toOption.bind RuleBase.ofJson?

/-! ## What is written is read -/

theorem Restriction.ofJson?_json (r : Restriction) : Restriction.ofJson? r.json = some r := by
  obtain ⟨resourceType, relation, subjectType, subjectRelation⟩ := r
  cases subjectRelation <;> rfl

theorem UnaryRule.ofJson?_json (r : UnaryRule) : UnaryRule.ofJson? r.json = some r := rfl

theorem BinaryRule.ofJson?_json (r : BinaryRule) : BinaryRule.ofJson? r.json = some r := rfl

/-- A rule base is taken apart as it was put together. -/
theorem RuleBase.ofJson?_json (b : RuleBase) : RuleBase.ofJson? b.json = some b := by
  have hrestrictions := Wire.mapM_map_eq_some fun r (_ : r ∈ b.restrictions) => r.ofJson?_json
  have hunary := Wire.mapM_map_eq_some fun r (_ : r ∈ b.unary) => r.ofJson?_json
  have hbinary := Wire.mapM_map_eq_some fun r (_ : r ∈ b.binary) => r.ofJson?_json
  simp [RuleBase.ofJson?, RuleBase.json, Json.field?, Json.items?, List.lookup, hrestrictions,
    hunary, hbinary]

theorem Json.depth_rows {α : Type} {f : α → Json} (hf : ∀ x, (f x).tree.depth ≤ 1) (xs : List α) :
    (Json.tree (.array (xs.map f))).depth ≤ 2 := by
  rw [Json.tree, Json.Tree.depth, Json.treeItems_eq_map, List.map_map]
  refine Nat.succ_le_succ (Json.itemDepth_le.mpr fun v hv => ?_)
  obtain ⟨x, _, rfl⟩ := List.mem_map.mp hv
  exact hf x

/-- A rule base is an object of lists of objects. -/
theorem RuleBase.depth_json (b : RuleBase) : b.json.tree.depth ≤ 3 := by
  have hrestriction : ∀ r : Restriction, r.json.tree.depth ≤ 1 := by
    intro r
    cases hrelation : r.subjectRelation <;>
      simp [Restriction.json, hrelation, Json.tree, Json.treeMembers, Json.Tree.depth,
        Json.memberDepth]
  have hrestrictions := Json.depth_rows hrestriction b.restrictions
  have hunary := Json.depth_rows (f := UnaryRule.json) (fun _ => Nat.le_refl 1) b.unary
  have hbinary := Json.depth_rows (f := BinaryRule.json) (fun _ => Nat.le_refl 1) b.binary
  rw [RuleBase.json, Json.tree, Json.Tree.depth]
  refine Nat.succ_le_succ (Json.memberDepth_le.mpr ?_)
  simpa [Json.treeMembers] using ⟨hrestrictions, hunary, hbinary⟩

/-- The text of a rule base is read as the rule base. -/
theorem RuleBase.readJson_json (b : RuleBase) : RuleBase.readJson (b.render .json) = some b := by
  have hread := Json.readAll_pretty (v := b.json) (b.depth_json.trans (by decide))
  rw [RuleBase.readJson, RuleBase.render, hread]
  exact b.ofJson?_json

/-- The JSON text of a rule base is valid, whatever characters its names hold, and read field by
field it gives the rule base back.  So different rule bases have different texts. -/
theorem RuleBase.json_reads_back (b : RuleBase) :
    (∃ v : Json.Tree, v.IsText (b.render .json)) ∧ RuleBase.readJson (b.render .json) = some b ∧
      ∀ c : RuleBase, c.render .json = b.render .json ↔ c = b := by
  refine ⟨⟨_, Json.isText_pretty b.json⟩, b.readJson_json, fun c => ⟨fun h => ?_, fun h => h ▸ rfl⟩⟩
  have hread := c.readJson_json
  rw [h, b.readJson_json] at hread
  exact (Option.some.inj hread).symm

end Rebac
