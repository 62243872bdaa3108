import Rebac.Text.Unprintable

/-!
# Quoted text in messages

A text is quoted so that it reads on one line.  The quotation mark, the backslash
and four control characters have an escape of their own, and every other character
that is not shown by itself is given by its number.
-/

namespace Rebac.Text

/-- A number in hexadecimal, in lower case. -/
def hex (n : Nat) : String := String.ofList (Nat.toDigits 16 n)

/-- A character as it stands in a quoted text. -/
def quotedChar (c : Char) : String :=
  if c = '"' then "\\\""
  else if c = '\\' then "\\\\"
  else if c = '\t' then "\\t"
  else if c = '\n' then "\\n"
  else if c = '\r' then "\\r"
  else if c.toNat = 0 then "\\0"
  else if isUnprintable c then "\\u\x7b" ++ hex c.toNat ++ "\x7d"
  else String.singleton c

/-- A text in quotation marks. -/
def quoted (s : String) : String := "\"" ++ String.join (s.toList.map quotedChar) ++ "\""

end Rebac.Text
