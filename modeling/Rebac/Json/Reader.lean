import Rebac.Json.Skip

/-!
# Readers of JSON by shape

A reader takes the number of levels that lists and objects may still nest and a
text, and gives a value and the rest of the text.  This module holds a reader for
each shape of a value: a string, a list, a map, a record and a choice.

* A list or a map holds values of one shape.  The entries of a map come in the
  order of the text, with repeated keys.
* A record has named fields.  It is an object, where unknown fields are passed
  over, or a list of its fields in order.  A record is read into a draft, and
  `Record.build` makes the value of the draft or says which field is missing.
* A choice is an object with one member, the name of a variant and its content.

Everything is read from left to right and the first fault wins.  So a fault of the
shape comes before a fault of the text that stands later.
-/

namespace Rebac.Json

open Text (isDigit)

/-- A reader of values: from the levels left and a text to a value and the rest. -/
abbrev Reader (α : Type) := Nat → List Char → Except Fault (α × List Char)

/-- The number of levels that lists and objects may nest. -/
def levelLimit : Nat := 127

/-- The levels left inside a list or an object. -/
def enter : Nat → Except Fault Nat
  | 0 => .error .tooDeep
  | n + 1 => .ok n

/-- Reads a value and applies a function to it. -/
def Reader.apply {α β : Type} (f : α → β) (value : Reader α) : Reader β := fun levels text => do
  let (x, rest) ← value levels text
  .ok (f x, rest)

/-! ## Values of another kind -/

/-- What stands at the start of a text.  A list or an object is not read any
further. -/
def found : List Char → Except Fault Found
  | [] => .error .endInValue
  | 'n' :: rest => do
      let _ ← readWord ['u', 'l', 'l'] rest
      .ok .null
  | 't' :: rest => do
      let _ ← readWord ['r', 'u', 'e'] rest
      .ok (.bool true)
  | 'f' :: rest => do
      let _ ← readWord ['a', 'l', 's', 'e'] rest
      .ok (.bool false)
  | '"' :: rest => do
      let (s, _) ← readString rest
      .ok (.string s)
  | '-' :: rest => do
      let (x, _) ← readNumber true rest
      .ok x
  | '[' :: _ => .ok .sequence
  | '\x7b' :: _ => .ok .map
  | c :: rest =>
      if isDigit c then do
        let (x, _) ← readNumber false (c :: rest)
        .ok x
      else .error .expectedValue

/-- The fault of a value that is not of the expected kind.  A fault in the value
itself wins. -/
def mismatch (expected : String) (text : List Char) : Fault :=
  match found text with
  | .ok x => .wrongKind x expected
  | .error fault => fault

/-! ## Strings -/

/-- Reads a string. -/
def Reader.string : Reader String := fun _ text =>
  match skipBlank text with
  | '"' :: rest => readString rest
  | rest => .error (mismatch "a string" rest)

/-! ## Lists -/

/-- Goes to the next item of a list, `none` if the list ends.  The closing bracket
is left in the text. -/
def nextItem (first : Bool) (text : List Char) : Except Fault (Option (List Char)) :=
  match skipBlank text with
  | [] => .error .endInList
  | ']' :: _ => .ok none
  | c :: rest =>
      if first then .ok (some (c :: rest))
      else if c = ',' then
        match skipBlank rest with
        | [] => .error .endInValue
        | ']' :: _ => .error .trailingComma
        | rest => .ok (some rest)
      else .error .expectedListEnd

/-- Reads the end of a list that has no further item. -/
def readListEnd (text : List Char) : Except Fault (List Char) :=
  match skipBlank text with
  | [] => .error .endInList
  | ']' :: rest => .ok rest
  | ',' :: rest =>
      match skipBlank rest with
      | ']' :: _ => .error .trailingComma
      | _ => .error .trailingCharacters
  | _ => .error .trailingCharacters

/-- Reads the items of a list and its end.  The number bounds the items. -/
def items {α : Type} (item : Reader α) (levels : Nat) :
    Nat → Bool → List Char → Except Fault (List α × List Char)
  | 0, _, _ => .error .endInList
  | n + 1, first, text => do
      match ← nextItem first text with
      | none => do
          let rest ← readListEnd text
          .ok ([], rest)
      | some text => do
          let (x, rest) ← item levels text
          let (xs, rest) ← items item levels n false rest
          .ok (x :: xs, rest)

/-- Reads a list.  Every item takes a character, so the length of the text bounds
their number. -/
def Reader.list {α : Type} (item : Reader α) : Reader (List α) := fun levels text =>
  match skipBlank text with
  | '[' :: rest => do
      let levels ← enter levels
      items item levels (rest.length + 1) true rest
  | rest => .error (mismatch "a sequence" rest)

/-! ## Maps -/

/-- Reads the next key of an object, without its colon.  The end of the object gives
`none`. -/
def nextKey (first : Bool) (text : List Char) : Except Fault (Option String × List Char) :=
  match skipBlank text with
  | [] => .error .endInObject
  | '\x7d' :: rest => .ok (none, rest)
  | '"' :: rest =>
      if first then do
        let (key, rest) ← readString rest
        .ok (some key, rest)
      else .error .expectedObjectEnd
  | c :: rest =>
      if first then .error .keyNotString
      else if c = ',' then
        match skipBlank rest with
        | [] => .error .endInValue
        | '"' :: rest => do
            let (key, rest) ← readString rest
            .ok (some key, rest)
        | '\x7d' :: _ => .error .trailingComma
        | _ => .error .keyNotString
      else .error .expectedObjectEnd

/-- Reads the entries of a map and its end.  The number bounds the entries. -/
def entries {α : Type} (value : Reader α) (levels : Nat) :
    Nat → Bool → List Char → Except Fault (List (String × α) × List Char)
  | 0, _, _ => .error .endInObject
  | n + 1, first, text => do
      match ← nextKey first text with
      | (none, rest) => .ok ([], rest)
      | (some key, rest) => do
          let rest ← readColon rest
          let (x, rest) ← value levels rest
          let (xs, rest) ← entries value levels n false rest
          .ok ((key, x) :: xs, rest)

/-- Reads a map as its entries in the order of the text. -/
def Reader.map {α : Type} (value : Reader α) : Reader (List (String × α)) := fun levels text =>
  match skipBlank text with
  | '\x7b' :: rest => do
      let levels ← enter levels
      entries value levels (rest.length + 1) true rest
  | rest => .error (mismatch "a map" rest)

/-! ## Records -/

/-- A field of a record that is read into drafts of type `σ`. -/
structure Field (σ : Type) where
  /-- The name of the field. -/
  name : String
  /-- Whether a draft has a value for the field. -/
  isFilled : σ → Bool
  /-- Reads a value and gives how it changes the draft. -/
  read : Reader (σ → σ)

/-- The field that a reader fills, given how a draft keeps it. -/
def Field.of {σ α : Type} (name : String) (value : Reader α) (get : σ → Option α)
    (set : σ → Option α → σ) : Field σ where
  name := name
  isFilled s := (get s).isSome
  read levels text := do
    let (x, rest) ← value levels text
    .ok (fun s => set s (some x), rest)

/-- The shape of records of type `α`, read into drafts of type `σ`. -/
structure Record (σ α : Type) where
  /-- What messages call the record. -/
  title : String
  /-- The fields in order. -/
  fields : List (Field σ)
  /-- The draft without any field. -/
  empty : σ
  /-- The record of a draft, or the name of a missing field. -/
  build : σ → Except String α

/-- Reads the members of a record and the end of the object.  The number bounds the
members. -/
def Record.members {σ α : Type} (r : Record σ α) (levels : Nat) :
    Nat → Bool → σ → List Char → Except Fault (σ × List Char)
  | 0, _, _, _ => .error .endInObject
  | n + 1, first, draft, text => do
      match ← nextKey first text with
      | (none, rest) => .ok (draft, rest)
      | (some key, rest) =>
          match r.fields.find? (·.name = key) with
          | none => do
              let rest ← readColon rest
              let rest ← skipValue rest
              r.members levels n false draft rest
          | some field =>
              if field.isFilled draft then .error (.duplicateField key)
              else do
                let rest ← readColon rest
                let (change, rest) ← field.read levels rest
                r.members levels n false (change draft) rest

/-- Reads the items of a record that is given as a list, as far as there are any.
Gives also how many there were. -/
def Record.columns {σ : Type} (levels : Nat) :
    List (Field σ) → Bool → σ → List Char → Except Fault (σ × Nat × List Char)
  | [], _, draft, text => .ok (draft, 0, text)
  | field :: fields, first, draft, text => do
      match ← nextItem first text with
      | none => .ok (draft, 0, text)
      | some text => do
          let (change, rest) ← field.read levels text
          let (draft, n, rest) ← Record.columns levels fields false (change draft) rest
          .ok (draft, n + 1, rest)

/-- Reads a record. -/
def Record.read {σ α : Type} (r : Record σ α) : Reader α := fun levels text =>
  match skipBlank text with
  | '\x7b' :: rest => do
      let levels ← enter levels
      let (draft, rest) ← r.members levels (rest.length + 1) true r.empty rest
      match r.build draft with
      | .ok x => .ok (x, rest)
      | .error name => .error (.missingField name)
  | '[' :: rest => do
      let levels ← enter levels
      let (draft, n, rest) ← Record.columns levels r.fields true r.empty rest
      match r.build draft with
      | .error _ => .error (.wrongLength n r.title r.fields.length)
      | .ok x => do
          let rest ← readListEnd rest
          .ok (x, rest)
  | rest => .error (mismatch r.title rest)

/-- The value of a draft's field or its default, or else the name of the field. -/
def required {α : Type} (name : String) (default? : Option α) : Option α → Except String α
  | some x => .ok x
  | none =>
      match default? with
      | some x => .ok x
      | none => .error name

/-- A record with one field, which may have a default. -/
def Record.single {α : Type} (title name : String) (value : Reader α) (default? : Option α) :
    Record (Option α) α where
  title := title
  fields := [Field.of name value id fun _ x => x]
  empty := none
  build := required name default?

/-- A record with two fields of one shape, which may have a default. -/
def Record.pair {α : Type} (title first second : String) (value : Reader α)
    (default? : Option α) : Record (Option α × Option α) (α × α) where
  title := title
  fields :=
    [Field.of first value (·.1) fun draft x => (x, draft.2),
      Field.of second value (·.2) fun draft x => (draft.1, x)]
  empty := (none, none)
  build draft := do
    let x ← required first default? draft.1
    let y ← required second default? draft.2
    .ok (x, y)

/-! ## Choices -/

/-- A variant of a choice. -/
structure Variant (α : Type) where
  name : String
  content : String
  read : Reader α

/-- The variant of a name. -/
def variant {α : Type} (variants : List (Variant α)) (name : String) :
    Except Fault (Variant α) :=
  match variants.find? (·.name = name) with
  | some v => .ok v
  | none => .error (.unknownVariant name (variants.map Variant.name))

/-- Reads the end of an object with one member. -/
def readSingleEnd (text : List Char) : Except Fault (List Char) :=
  match skipBlank text with
  | [] => .error .endInObject
  | '\x7d' :: rest => .ok rest
  | _ => .error .expectedValue

/-- Reads a choice.  A string that names a variant lacks its content. -/
def Reader.choice {α : Type} (variants : List (Variant α)) : Reader α := fun levels text =>
  match skipBlank text with
  | [] => .error .endInValue
  | '\x7b' :: rest => do
      let levels ← enter levels
      match ← nextKey true rest with
      | (none, _) => .error .expectedValue
      | (some name, rest) => do
          let v ← variant variants name
          let rest ← readColon rest
          let (x, rest) ← v.read levels rest
          let rest ← readSingleEnd rest
          .ok (x, rest)
  | '"' :: rest => do
      let (name, _) ← readString rest
      let v ← variant variants name
      .error (.wrongKind .bareVariant v.content)
  | _ => .error .expectedValue

/-! ## Whole texts -/

/-- Reads a text that holds one value and nothing after it. -/
def readAll {α : Type} (value : Reader α) (text : String) : Except Fault α := do
  let (x, rest) ← value levelLimit text.toList
  if (skipBlank rest).isEmpty then .ok x else .error .trailingCharacters

end Rebac.Json
