import Rebac.Text.Quoted

/-!
# Faults in JSON texts

A JSON text is read once, from left to right, against the shape that is expected.
The first fault ends the reading.  It is one of three categories: the text ends too
early, it is not JSON, or it is JSON of another shape.
-/

namespace Rebac

/-- What stands in a JSON text where something else was expected. -/
inductive Json.Found where
  /-- `null`. -/
  | null
  /-- `true` or `false`. -/
  | bool (b : Bool)
  /-- A whole number of 64 bits. -/
  | integer (n : Int)
  /-- Any other number, with its text. -/
  | float (text : String)
  /-- A string. -/
  | string (s : String)
  /-- A list. -/
  | sequence
  /-- An object. -/
  | map
  /-- The name of a variant without its content. -/
  | bareVariant
  deriving Repr, DecidableEq

/-- What was found, in words. -/
def Json.Found.text : Json.Found → String
  | .null => "null"
  | .bool b => "boolean `" ++ toString b ++ "`"
  | .integer n => "integer `" ++ toString n ++ "`"
  | .float text => "floating point `" ++ text ++ "`"
  | .string s => "string " ++ Text.quoted s
  | .sequence => "sequence"
  | .map => "map"
  | .bareVariant => "unit variant"

/-- Why a JSON text cannot be read. -/
inductive Json.Fault where
  /-- The text ends where a value should be. -/
  | endInValue
  /-- The text ends in a string. -/
  | endInString
  /-- The text ends in a list. -/
  | endInList
  /-- The text ends in an object. -/
  | endInObject
  /-- No value starts here. -/
  | expectedValue
  /-- A letter of `null`, `true` or `false` is wrong. -/
  | expectedWord
  /-- No colon after a key. -/
  | expectedColon
  /-- Neither a comma nor the end after an item. -/
  | expectedListEnd
  /-- Neither a comma nor the end after a member. -/
  | expectedObjectEnd
  /-- A key that is no string. -/
  | keyNotString
  /-- A comma before the end. -/
  | trailingComma
  /-- Something after the end. -/
  | trailingCharacters
  /-- A number in a wrong form. -/
  | invalidNumber
  /-- A number too large for a float. -/
  | numberOutOfRange
  /-- An unknown escape. -/
  | invalidEscape
  /-- A control character in a string. -/
  | controlCharacter
  /-- A surrogate without its partner. -/
  | loneSurrogate
  /-- A surrogate before anything but an escape. -/
  | endOfSurrogate
  /-- Too many levels of lists and objects. -/
  | tooDeep
  /-- A value of another kind than expected. -/
  | wrongKind (found : Json.Found) (expected : String)
  /-- A record given as a list with too few items. -/
  | wrongLength (length : Nat) (expected : String) (fields : Nat)
  /-- A field of a record given twice. -/
  | duplicateField (name : String)
  /-- A field of a record not given. -/
  | missingField (name : String)
  /-- A variant of an unknown name. -/
  | unknownVariant (name : String) (known : List String)
  deriving Repr, DecidableEq

/-- The three categories of faults. -/
inductive Json.Fault.Category where
  /-- The text ends too early. -/
  | ending
  /-- The text is not JSON. -/
  | form
  /-- The text is JSON of another shape. -/
  | shape
  deriving Repr, DecidableEq

/-- The category of a fault. -/
def Json.Fault.category : Json.Fault → Json.Fault.Category
  | .endInValue | .endInString | .endInList | .endInObject => .ending
  | .wrongKind .. | .wrongLength .. | .duplicateField .. | .missingField .. | .unknownVariant .. =>
      .shape
  | _ => .form

/-- Names in backticks, as alternatives. -/
def Json.alternatives : List String → String
  | [a, b] => "`" ++ a ++ "` or `" ++ b ++ "`"
  | names => "one of " ++ ", ".intercalate (names.map fun n => "`" ++ n ++ "`")

/-- The fault in words. -/
def Json.Fault.message : Json.Fault → String
  | .endInValue => "EOF while parsing a value"
  | .endInString => "EOF while parsing a string"
  | .endInList => "EOF while parsing a list"
  | .endInObject => "EOF while parsing an object"
  | .expectedValue => "expected value"
  | .expectedWord => "expected ident"
  | .expectedColon => "expected `:`"
  | .expectedListEnd => "expected `,` or `]`"
  | .expectedObjectEnd => "expected `,` or `\x7d`"
  | .keyNotString => "key must be a string"
  | .trailingComma => "trailing comma"
  | .trailingCharacters => "trailing characters"
  | .invalidNumber => "invalid number"
  | .numberOutOfRange => "number out of range"
  | .invalidEscape => "invalid escape"
  | .controlCharacter => "control character (\\u0000-\\u001F) found while parsing a string"
  | .loneSurrogate => "lone leading surrogate in hex escape"
  | .endOfSurrogate => "unexpected end of hex escape"
  | .tooDeep => "recursion limit exceeded"
  | .wrongKind found expected => "invalid type: " ++ found.text ++ ", expected " ++ expected
  | .wrongLength length expected fields =>
      "invalid length " ++ toString length ++ ", expected " ++ expected ++ " with " ++
        toString fields ++ (if fields = 1 then " element" else " elements")
  | .duplicateField name => "duplicate field `" ++ name ++ "`"
  | .missingField name => "missing field `" ++ name ++ "`"
  | .unknownVariant name known =>
      "unknown variant `" ++ name ++ "`, expected " ++ Json.alternatives known

end Rebac
