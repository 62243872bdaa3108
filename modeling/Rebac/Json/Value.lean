/-!
# JSON values and their layout

A JSON value is laid out over several lines.  Each nesting level is indented by
two spaces, a member is `"key": value`, and an empty list or object stays on one
line.  In a string only the quotation mark, the backslash and the characters
below U+0020 are escaped, five of them by a letter and the others by four
hexadecimal digits.
-/

namespace Rebac

/-- A JSON value.  The members of an object are in order. -/
inductive Json where
  | null
  | string (s : String)
  | array (items : List Json)
  | object (members : List (String × Json))
  deriving Repr, Inhabited

/-- A hexadecimal digit, in lower case. -/
def hexDigit (n : Nat) : Char :=
  if n < 10 then Char.ofNat (48 + n) else Char.ofNat (87 + n)

/-- A character as it is written inside a JSON string. -/
def Json.escape (c : Char) : List Char :=
  if c = '"' then ['\\', '"']
  else if c = '\\' then ['\\', '\\']
  else if c.toNat < 0x20 then
    match c.toNat with
    | 8 => ['\\', 'b']
    | 9 => ['\\', 't']
    | 10 => ['\\', 'n']
    | 12 => ['\\', 'f']
    | 13 => ['\\', 'r']
    | n => ['\\', 'u', '0', '0', hexDigit (n / 16), hexDigit (n % 16)]
  else [c]

/-- A JSON string with its quotation marks. -/
def Json.quote (s : String) : List Char := '"' :: (s.toList.flatMap Json.escape ++ ['"'])

/-- A line break and the indentation of the next line. -/
def Json.newLine (depth : Nat) : List Char := '\n' :: List.replicate (2 * depth) ' '

mutual

/-- The layout of a value at a nesting depth. -/
def Json.layout (depth : Nat) : Json → List Char
  | .null => "null".toList
  | .string s => Json.quote s
  | .array [] => "[]".toList
  | .array (v :: vs) =>
      '[' :: (Json.newLine (depth + 1) ++ v.layout (depth + 1) ++ Json.layoutItems (depth + 1) vs ++
        Json.newLine depth ++ [']'])
  | .object [] => "\x7b\x7d".toList
  | .object ((k, v) :: ms) =>
      '{' :: (Json.newLine (depth + 1) ++ Json.quote k ++ ": ".toList ++ v.layout (depth + 1) ++
        Json.layoutMembers (depth + 1) ms ++ Json.newLine depth ++ ['}'])

/-- The items of a list after the first. -/
def Json.layoutItems (depth : Nat) : List Json → List Char
  | [] => []
  | v :: vs => ',' :: (Json.newLine depth ++ v.layout depth ++ Json.layoutItems depth vs)

/-- The members of an object after the first. -/
def Json.layoutMembers (depth : Nat) : List (String × Json) → List Char
  | [] => []
  | (k, v) :: ms =>
      ',' :: (Json.newLine depth ++ Json.quote k ++ ": ".toList ++ v.layout depth ++
        Json.layoutMembers depth ms)

end

/-- A JSON value as indented text. -/
def Json.pretty (v : Json) : String := String.ofList (v.layout 0)

end Rebac
