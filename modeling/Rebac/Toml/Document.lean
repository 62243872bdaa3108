import Rebac.Toml.Moment
import Rebac.Toml.Number
import Rebac.Toml.Table
import Rebac.Toml.Text

/-!
# Documents of TOML

A document is a list of lines.  A line is blank, a comment, a header or an assignment.
Values nest in arrays and in tables within a line, down to a fixed depth.  An array may
go over many lines, with comments.  A table within a line ends on that line.

`Toml.read` gives the root table of a document, or `none` if the text is no TOML.
-/

namespace Rebac.Toml

/-- A reader of values. -/
abbrev ValueReader := List Char → Option (Value × List Char)

/-! ## Arrays -/

/-- Reads the items of an array and the closing bracket.  The number bounds the
items. -/
def readItems (value : ValueReader) : Nat → List Char → Option (List Value × List Char)
  | 0, _ => none
  | n + 1, text => do
      match ← skipSpace (text.length + 1) text with
      | ']' :: rest => some ([], rest)
      | text => do
          let (v, rest) ← value text
          match ← skipSpace (rest.length + 1) rest with
          | ',' :: rest => do
              let (vs, rest) ← readItems value n rest
              some (v :: vs, rest)
          | ']' :: rest => some ([v], rest)
          | _ => none

/-! ## Tables within a line -/

/-- Reads a key and its value. -/
def readAssignment (value : ValueReader) (text : List Char) : Option (Assignment × List Char) := do
  let (parts, rest) ← readKey text
  let key ← parts.getLast?
  match rest with
  | '=' :: rest => do
      let (v, rest) ← value (skipBlank rest)
      some (⟨parts.dropLast, key, v⟩, rest)
  | _ => none

/-- Reads the entries of a table within a line, of which there is one, and the closing
bracket.  The number bounds the entries. -/
def readInlineEntries (value : ValueReader) :
    Nat → List Char → Option (List Assignment × List Char)
  | 0, _ => none
  | n + 1, text => do
      let (a, rest) ← readAssignment value text
      match skipBlank rest with
      | ',' :: rest => do
          let (as, rest) ← readInlineEntries value n rest
          some (a :: as, rest)
      | '\x7d' :: rest => some ([a], rest)
      | _ => none

/-- Reads a table within a line after its opening bracket. -/
def readInlineTable (value : ValueReader) (text : List Char) : Option (Value × List Char) :=
  match skipBlank text with
  | '\x7d' :: rest => some (.table .inline [], rest)
  | _ => do
      let (as, rest) ← readInlineEntries value (text.length + 1) text
      let entries ← Entries.assignAll [] .inline as
      some (.table .inline entries, rest)

/-! ## Values -/

/-- The depth to which arrays and tables within a line may nest. -/
def depthLimit : Nat := 79

/-- Reads a moment, a float or a whole number, tried in this order. -/
def readNumeric (text : List Char) : Option (Value × List Char) :=
  match readMoment text with
  | some rest => some (.moment, rest)
  | none =>
      match readFloat text with
      | some rest => some (.float, rest)
      | none => do
          let (n, rest) ← readInteger text
          some (.integer n, rest)

/-- Reads a value in which arrays and tables may nest so deep. -/
def readValueWithin : Nat → List Char → Option (Value × List Char)
  | depth, text =>
      match text with
      | '"' :: _ | '\x27' :: _ => do
          let (s, rest) ← readString text
          some (.string s, rest)
      | '[' :: rest =>
          match depth with
          | 0 => none
          | depth + 1 => do
              let (items, rest) ← readItems (readValueWithin depth) (rest.length + 1) rest
              some (.array items, rest)
      | '\x7b' :: rest =>
          match depth with
          | 0 => none
          | depth + 1 => readInlineTable (readValueWithin depth) rest
      | 't' :: 'r' :: 'u' :: 'e' :: rest => some (.boolean true, rest)
      | 'f' :: 'a' :: 'l' :: 's' :: 'e' :: rest => some (.boolean false, rest)
      | _ => readNumeric text

/-- Reads a value. -/
def readValue : ValueReader := readValueWithin depthLimit

/-! ## Lines -/

/-- What stands on a line. -/
inductive Line where
  | empty
  | header (h : Header)
  | assignment (a : Assignment)
  deriving Repr

/-- Reads the key of a header. -/
def readHeaderKey (text : List Char) : Option (List String × String × List Char) := do
  let (parts, rest) ← readKey text
  let key ← parts.getLast?
  some (parts.dropLast, key, rest)

/-- Reads a line without its end. -/
def readLine (text : List Char) : Option (Line × List Char) :=
  match text with
  | [] | '#' :: _ | '\n' :: _ | '\r' :: _ => some (.empty, text)
  | '[' :: '[' :: rest => do
      match ← readHeaderKey rest with
      | (path, key, ']' :: ']' :: rest) => some (.header (.row path key), rest)
      | _ => none
  | '[' :: rest => do
      match ← readHeaderKey rest with
      | (path, key, ']' :: rest) => some (.header (.table path key), rest)
      | _ => none
  | _ => do
      let (a, rest) ← readAssignment readValue text
      some (.assignment a, rest)

/-- Reads lines up to the end of the text.  The number bounds the lines. -/
def readDocumentLines : Nat → List Char → Option (List Line)
  | 0, _ => none
  | n + 1, text =>
      match skipBlank text with
      | [] => some []
      | text => do
          let (line, rest) ← readLine text
          let rest ← readLineEnd rest
          let lines ← readDocumentLines n rest
          some (line :: lines)

/-- The assignments before the first header and the sections of lines. -/
def parts : List Line → List Assignment × List Part
  | [] => ([], [])
  | .empty :: lines => parts lines
  | .assignment a :: lines =>
      let (first, rest) := parts lines
      (a :: first, rest)
  | .header h :: lines =>
      let (first, rest) := parts lines
      ([], ⟨h, first⟩ :: rest)

/-- The text after a byte order mark, if it starts with one. -/
def skipMark : List Char → List Char
  | '\ufeff' :: text => text
  | text => text

/-- Reads a document.  Every line takes a character, so the length of the text bounds
their number. -/
def read (text : String) : Option Entries := do
  let lines ← readDocumentLines (text.length + 1) (skipMark text.toList)
  let (first, rest) := parts lines
  Entries.ofParts first rest

end Rebac.Toml
