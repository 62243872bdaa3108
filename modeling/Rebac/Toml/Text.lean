import Rebac.Text.Digit

/-!
# Lines, comments and strings of TOML

A text is read as a list of characters.  Every reader gives what it read and the rest
of the text, or `none` if the text is not TOML.

There are four kinds of strings: basic ones, with escapes, and literal ones, each on
one line or on many.  A string on many lines stands between three quotation marks.  A
line break right after the opening marks does not count, and every line break is read
as a single line feed.  Up to two quotation marks may stand together inside, and also
right before the closing marks.
-/

namespace Rebac.Toml

open Text (hexValue? numeral)

/-! ## Blanks, line breaks and comments -/

/-- Whether a character is a blank within a line. -/
def isBlank (c : Char) : Bool := c = ' ' ∨ c = '\t'

/-- The text after leading blanks. -/
def skipBlank (text : List Char) : List Char := text.dropWhile isBlank

/-- Whether a character may stand in a comment: anything but a control character. -/
def isPlain (c : Char) : Bool := c = '\t' ∨ (' ' ≤ c ∧ c ≠ '\x7f')

/-- How many characters the line break at the start of a text takes, zero if there is
none. -/
def breakSize : List Char → Nat
  | '\n' :: _ => 1
  | '\r' :: '\n' :: _ => 2
  | _ => 0

/-- Reads a line break. -/
def readBreak (text : List Char) : Option (List Char) :=
  match breakSize text with
  | 0 => none
  | n => some (text.drop n)

/-- The text after a comment, if there is one. -/
def skipComment : List Char → List Char
  | '#' :: text => text.dropWhile isPlain
  | text => text

/-- Reads what may follow on a line, and the line break or the end of the text. -/
def readLineEnd (text : List Char) : Option (List Char) :=
  match skipComment (skipBlank text) with
  | [] => some []
  | rest => readBreak rest

/-- How many characters of blanks and line breaks stand at the start of a text. -/
def spaceSize : List Char → Nat
  | '\r' :: '\n' :: text => spaceSize text + 2
  | c :: text => if isBlank c ∨ c = '\n' then spaceSize text + 1 else 0
  | [] => 0

/-- The text after blanks, line breaks and comments, each of which has to end with a
line break.  The number bounds the comments. -/
def skipSpace : Nat → List Char → Option (List Char)
  | 0, _ => none
  | n + 1, text =>
      match text.drop (spaceSize text) with
      | '#' :: rest => do
          let rest ← readBreak (rest.dropWhile isPlain)
          skipSpace n rest
      | rest => some rest

/-! ## Escapes -/

/-- The character that so many hexadecimal digits write. -/
def readCode (length : Nat) (text : List Char) : Option Char :=
  let digits := text.take length
  let code := numeral 16 digits
  if digits.length = length ∧ digits.all (hexValue? · |>.isSome) ∧ code.isValidChar then
    some (Char.ofNat code)
  else none

/-- Reads an escape after its backslash.  Gives the character and how many characters
the escape takes. -/
def readEscape : List Char → Option (Char × Nat)
  | 'b' :: _ => some ('\x08', 1)
  | 't' :: _ => some ('\t', 1)
  | 'n' :: _ => some ('\n', 1)
  | 'f' :: _ => some ('\x0c', 1)
  | 'r' :: _ => some ('\r', 1)
  | '"' :: _ => some ('"', 1)
  | '\\' :: _ => some ('\\', 1)
  | 'u' :: text => (readCode 4 text).map (·, 5)
  | 'U' :: text => (readCode 8 text).map (·, 9)
  | _ => none

/-- How many characters a line break takes that a backslash joins with the blanks and
line breaks after it, zero if there is none. -/
def joinSize (text : List Char) : Nat :=
  let blanks := (text.takeWhile isBlank).length
  if breakSize (text.drop blanks) = 0 then 0 else spaceSize text

/-! ## Strings -/

/-- Reads the characters of a basic string and its closing mark. -/
def readBasic (text : List Char) : Option (List Char × List Char) :=
  match text with
  | '"' :: rest => some ([], rest)
  | '\\' :: rest => do
      let (c, n) ← readEscape rest
      let (cs, rest) ← readBasic (rest.drop n)
      some (c :: cs, rest)
  | c :: rest =>
      if isPlain c then do
        let (cs, rest) ← readBasic rest
        some (c :: cs, rest)
      else none
  | [] => none
termination_by text.length
decreasing_by all_goals (simp; try omega)

/-- Reads the characters of a literal string and its closing mark. -/
def readLiteral : List Char → Option (List Char × List Char)
  | '\x27' :: rest => some ([], rest)
  | c :: rest =>
      if isPlain c then do
        let (cs, rest) ← readLiteral rest
        some (c :: cs, rest)
      else none
  | [] => none

/-- Reads the characters of a string on many lines and its closing marks, where `mark`
is the quotation mark and `escapes` says whether a backslash is special. -/
def readLines (mark : Char) (escapes : Bool) (text : List Char) :
    Option (List Char × List Char) :=
  match text with
  | [] => none
  | c :: rest =>
      if c = mark then
        let marks := (text.takeWhile (· = mark)).length
        if 3 ≤ marks then
          let extra := min (marks - 3) 2
          some (List.replicate extra mark, text.drop (3 + extra))
        else do
          let (cs, rest) ← readLines mark escapes rest
          some (mark :: cs, rest)
      else if breakSize text ≠ 0 then do
        let (cs, rest) ← readLines mark escapes (rest.drop (breakSize text - 1))
        some ('\n' :: cs, rest)
      else if escapes ∧ c = '\\' then
        if joinSize rest ≠ 0 then readLines mark escapes (rest.drop (joinSize rest))
        else do
          let (d, n) ← readEscape rest
          let (cs, rest) ← readLines mark escapes (rest.drop n)
          some (d :: cs, rest)
      else if isPlain c then do
        let (cs, rest) ← readLines mark escapes rest
        some (c :: cs, rest)
      else none
termination_by text.length
decreasing_by all_goals (simp; try omega)

/-- The text after a line break, if it starts with one. -/
def skipBreak (text : List Char) : List Char := text.drop (breakSize text)

/-- Reads a string on one line. -/
def readLineString : List Char → Option (String × List Char)
  | '"' :: rest => do
      let (cs, rest) ← readBasic rest
      some (String.ofList cs, rest)
  | '\x27' :: rest => do
      let (cs, rest) ← readLiteral rest
      some (String.ofList cs, rest)
  | _ => none

/-- Reads a string. -/
def readString : List Char → Option (String × List Char)
  | '"' :: '"' :: '"' :: rest => do
      let (cs, rest) ← readLines '"' true (skipBreak rest)
      some (String.ofList cs, rest)
  | '\x27' :: '\x27' :: '\x27' :: rest => do
      let (cs, rest) ← readLines '\x27' false (skipBreak rest)
      some (String.ofList cs, rest)
  | text => readLineString text

/-! ## Keys -/

/-- Whether a character may stand in a bare key. -/
def isBare (c : Char) : Bool :=
  ('a' ≤ c ∧ c ≤ 'z') ∨ ('A' ≤ c ∧ c ≤ 'Z') ∨ ('0' ≤ c ∧ c ≤ '9') ∨ c = '_' ∨ c = '-'

/-- Reads one part of a key: a bare word or a string on one line. -/
def readKeyPart (text : List Char) : Option (String × List Char) :=
  match text.head? with
  | some '"' | some '\x27' => readLineString text
  | _ =>
      match text.takeWhile isBare with
      | [] => none
      | cs => some (String.ofList cs, text.dropWhile isBare)

/-- The largest number of parts of a key. -/
def keyLimit : Nat := 79

/-- Reads the parts of a key, with blanks around each and points between them.  The
number bounds the parts. -/
def readKeyWithin : Nat → List Char → Option (List String × List Char)
  | 0, _ => none
  | n + 1, text => do
      let (part, rest) ← readKeyPart (skipBlank text)
      match skipBlank rest with
      | '.' :: rest => do
          let (parts, rest) ← readKeyWithin n rest
          some (part :: parts, rest)
      | rest => some ([part], rest)

/-- Reads a key. -/
def readKey (text : List Char) : Option (List String × List Char) := readKeyWithin keyLimit text

end Rebac.Toml
