import Rebac.Language.Trace

/-!
# Reports of syntax errors

A report shows the line of the furthest failure and marks the column.  Lines end
with a line feed, and columns count characters.  If the failure is at a carriage
return or a line feed, the line is shown with symbols in their place, and
otherwise without them.
-/

namespace Rebac.Language

/-- A syntax error, ready to be shown. -/
structure Report where
  /-- The number of the line, from 1. -/
  line : Nat
  /-- The number of the column, from 1. -/
  column : Nat
  /-- The line as it is shown. -/
  shown : List Char
  /-- The rules that were expected there. -/
  expected : List Rule
  deriving Repr, DecidableEq

/-- The characters after the last line feed. -/
def lastLine (text : List Char) : List Char :=
  (text.reverse.takeWhile (· ≠ '\n')).reverse

/-- The characters up to the first line feed, and that line feed. -/
def firstLine (text : List Char) : List Char :=
  text.takeWhile (· ≠ '\n') ++ (text.dropWhile (· ≠ '\n')).take 1

/-- Whether a character ends a line. -/
def isLineEnd (c : Char) : Bool := c = '\r' ∨ c = '\n'

/-- A line with symbols for the characters that end it. -/
def symbolized (line : List Char) : List Char :=
  line.map fun c => if c = '\r' then '␍' else if c = '\n' then '␊' else c

/-- The report of attempts at a text. -/
def Report.of (text : List Char) (a : Attempts) : Report :=
  let before := text.take (text.length - a.left)
  let after := text.drop (text.length - a.left)
  let line := lastLine before ++ firstLine after
  { line := before.count '\n' + 1
    column := (lastLine before).length + 1
    shown :=
      if after.head?.any isLineEnd then symbolized line else line.filter (fun c => !isLineEnd c)
    expected := a.expected }

/-- Alternatives in words: `a`, `a or b`, `a, b, or c`. -/
def orList : List String → String
  | [] => ""
  | [a] => a
  | [a, b] => a ++ " or " ++ b
  | names => ", ".intercalate names.dropLast ++ ", or " ++ names.getLastD ""

/-- The mark under the shown line: blanks as wide as what stands before the
column, then an arrow. -/
def Report.mark (r : Report) : String :=
  String.ofList ((r.shown.take (r.column - 1)).map fun c => if c = '\t' then '\t' else ' ') ++
    "^---"

/-- The report as text. -/
def Report.text (r : Report) : String :=
  let number := toString r.line
  let margin := String.ofList (List.replicate number.length ' ')
  "\n".intercalate
    [margin ++ "--> " ++ number ++ ":" ++ toString r.column,
      margin ++ " |",
      number ++ " | " ++ String.ofList r.shown,
      margin ++ " | " ++ r.mark,
      margin ++ " |",
      margin ++ " = expected " ++ orList (r.expected.map Rule.text)]

end Rebac.Language
