import Rebac.Json.Scalar

/-!
# Passing over a value

The value of an unknown field is passed over without being kept.  It still has to
be JSON, but no more than that is asked: a number may be of any size, a surrogate
needs no partner, and there is no bound on how deep lists and objects may nest.  So
the lists and objects that are still open are a list of frames, not levels of a
recursion.
-/

namespace Rebac.Json

open Text (isDigit)

/-- Reads the colon after a key. -/
def readColon (text : List Char) : Except Fault (List Char) :=
  match skipBlank text with
  | [] => .error .endInObject
  | ':' :: rest => .ok rest
  | _ => .error .expectedColon

/-! ## Scalars -/

/-- How many characters an escape takes after its backslash. -/
def skipEscape : List Char → Except Fault Nat
  | [] => .error .endInString
  | 'u' :: text => do
      let _ ← readUnit text
      .ok 5
  | c :: _ => if (letterEscape? c).isSome then .ok 1 else .error .invalidEscape

/-- Passes over the characters of a string and its closing quotation mark. -/
def skipChars (text : List Char) : Except Fault (List Char) :=
  match text with
  | [] => .error .endInString
  | '"' :: rest => .ok rest
  | '\\' :: rest => do
      let n ← skipEscape rest
      skipChars (rest.drop n)
  | c :: rest => if c.toNat < 0x20 then .error .controlCharacter else skipChars rest
termination_by text.length
decreasing_by all_goals (simp; try omega)

/-- Passes over digits, of which there has to be one. -/
def skipDigits : List Char → Except Fault (List Char)
  | c :: rest => if isDigit c then .ok (rest.dropWhile isDigit) else .error .invalidNumber
  | [] => .error .invalidNumber

/-- Passes over an exponent, if there is one. -/
def skipExponent : List Char → Except Fault (List Char)
  | 'e' :: rest | 'E' :: rest =>
      match rest with
      | '+' :: digits | '-' :: digits => skipDigits digits
      | digits => skipDigits digits
  | rest => .ok rest

/-- Passes over a number from its first digit on. -/
def skipNumber (text : List Char) : Except Fault (List Char) := do
  let rest ←
    match text with
    | '0' :: rest => if rest.head?.any isDigit then .error .invalidNumber else .ok rest
    | rest => skipDigits rest
  match rest with
  | '.' :: digits => do
      let rest ← skipDigits digits
      skipExponent rest
  | rest => skipExponent rest

/-- Passes over a word, a number or a string. -/
def skipScalar : List Char → Except Fault (List Char)
  | [] => .error .endInValue
  | 'n' :: rest => readWord ['u', 'l', 'l'] rest
  | 't' :: rest => readWord ['r', 'u', 'e'] rest
  | 'f' :: rest => readWord ['a', 'l', 's', 'e'] rest
  | '"' :: rest => skipChars rest
  | '-' :: rest => skipNumber rest
  | c :: rest => if isDigit c then skipNumber (c :: rest) else .error .expectedValue

/-! ## Lists and objects -/

/-- A list or an object that is still open. -/
inductive Frame where
  | list
  | object
  deriving Repr, DecidableEq

/-- The bracket that closes a frame. -/
def Frame.closing : Frame → Char
  | .list => ']'
  | .object => '\x7d'

/-- The fault of a text that ends in a frame. -/
def Frame.unclosed : Frame → Fault
  | .list => .endInList
  | .object => .endInObject

/-- The fault of a frame that neither goes on nor ends. -/
def Frame.unseparated : Frame → Fault
  | .list => .expectedListEnd
  | .object => .expectedObjectEnd

/-- Passes over the key of the next value, if it has one. -/
def Frame.skipKey : Frame → List Char → Except Fault (List Char)
  | .list, text => .ok text
  | .object, text =>
      match skipBlank text with
      | [] => .error .endInObject
      | '"' :: rest => do
          let rest ← skipChars rest
          readColon rest
      | _ => .error .keyNotString

/-- What comes next while a value is passed over. -/
inductive Place where
  /-- A value. -/
  | value
  /-- The first value of a frame, or its end. -/
  | opened
  /-- What follows a value. -/
  | done
  deriving Repr, DecidableEq

/-- Passes over what is left of a value, with the open frames from the inside out.
The number bounds the steps. -/
def skipFrom : Nat → Place → List Frame → List Char → Except Fault (List Char)
  | 0, _, _, _ => .error .endInValue
  | n + 1, .value, frames, text =>
      match skipBlank text with
      | '[' :: rest => skipFrom n .opened (.list :: frames) rest
      | '\x7b' :: rest => skipFrom n .opened (.object :: frames) rest
      | rest => do
          let rest ← skipScalar rest
          skipFrom n .done frames rest
  | _ + 1, .opened, [], text | _ + 1, .done, [], text => .ok text
  | n + 1, .opened, frame :: frames, text =>
      match skipBlank text with
      | [] => .error frame.unclosed
      | c :: rest =>
          if c = frame.closing then skipFrom n .done frames rest
          else do
            let rest ← frame.skipKey (c :: rest)
            skipFrom n .value (frame :: frames) rest
  | n + 1, .done, frame :: frames, text =>
      match skipBlank text with
      | [] => .error frame.unclosed
      | c :: rest =>
          if c = ',' then do
            let rest ← frame.skipKey rest
            skipFrom n .value (frame :: frames) rest
          else if c = frame.closing then skipFrom n .done frames rest
          else .error frame.unseparated

/-- Passes over a value.  Every step but the one after an opening bracket takes a
character, so twice the length of the text is enough. -/
def skipValue (text : List Char) : Except Fault (List Char) :=
  skipFrom (2 * text.length + 2) .value [] text

end Rebac.Json
