import Rebac.Decimal.Shortest
import Rebac.Json.Fault
import Rebac.Text.Digit

/-!
# Reading strings, words and numbers

The readers here start right after the first character of what they read, or at
it for numbers, and give the rest of the text.

In a string an escape is one letter, or `u` and four hexadecimal digits for a
UTF-16 unit.  A character outside the first plane takes two units, a leading and
a trailing surrogate.

A number without fraction and exponent is whole if it fits into 64 bits.  Any
other number is a float.  Its digits are collected as a whole number of 64 bits,
and those that do not fit any more only move the point.  The float is that whole
number multiplied or divided by a power of ten.
-/

namespace Rebac.Json

open Text (isDigit digitValue hexValue? numeral)

/-- Whether a character is white space in JSON. -/
def isBlank (c : Char) : Bool := c = ' ' ∨ c = '\t' ∨ c = '\n' ∨ c = '\r'

/-- The text after leading white space. -/
def skipBlank (text : List Char) : List Char := text.dropWhile isBlank

/-! ## Strings -/

/-- The unit that four hexadecimal digits give.  A text that has not even four
bytes left ends too early. -/
def readUnit (text : List Char) : Except Fault Nat :=
  let digits := text.take 4
  if (String.ofList digits).utf8ByteSize < 4 then .error .endInString
  else if digits.length = 4 ∧ digits.all (hexValue? · |>.isSome) then .ok (numeral 16 digits)
  else .error .invalidEscape

/-- Whether a unit is a leading surrogate. -/
def isLeading (unit : Nat) : Bool := 0xD800 ≤ unit && unit ≤ 0xDBFF

/-- Whether a unit is a trailing surrogate. -/
def isTrailing (unit : Nat) : Bool := 0xDC00 ≤ unit && unit ≤ 0xDFFF

/-- The character of two surrogates. -/
def ofSurrogates (leading trailing : Nat) : Char :=
  Char.ofNat ((leading - 0xD800) * 0x400 + (trailing - 0xDC00) + 0x10000)

/-- Reads an escape of units, after its `u`.  Gives the character and how many
characters it takes. -/
def readUnits (text : List Char) : Except Fault (Char × Nat) := do
  let unit ← readUnit text
  if isTrailing unit then .error .loneSurrogate
  else if isLeading unit then
    match text.drop 4 with
    | '\\' :: 'u' :: rest => do
        let second ← readUnit rest
        if isTrailing second then .ok (ofSurrogates unit second, 10)
        else .error .loneSurrogate
    | [] | ['\\'] => .error .endInString
    | _ => .error .endOfSurrogate
  else .ok (Char.ofNat unit, 4)

/-- The character that a letter stands for after a backslash. -/
def letterEscape? : Char → Option Char
  | '"' => some '"'
  | '\\' => some '\\'
  | '/' => some '/'
  | 'b' => some '\x08'
  | 'f' => some '\x0c'
  | 'n' => some '\n'
  | 'r' => some '\r'
  | 't' => some '\t'
  | _ => none

/-- Reads an escape after its backslash.  Gives the character and how many
characters it takes. -/
def readEscape : List Char → Except Fault (Char × Nat)
  | [] => .error .endInString
  | 'u' :: text => do
      let (c, n) ← readUnits text
      .ok (c, n + 1)
  | c :: _ =>
      match letterEscape? c with
      | some d => .ok (d, 1)
      | none => .error .invalidEscape

/-- Reads the characters of a string up to its closing quotation mark. -/
def readChars (text : List Char) : Except Fault (List Char × List Char) :=
  match text with
  | [] => .error .endInString
  | '"' :: rest => .ok ([], rest)
  | '\\' :: rest => do
      let (c, n) ← readEscape rest
      let (cs, rest) ← readChars (rest.drop n)
      .ok (c :: cs, rest)
  | c :: rest =>
      if c.toNat < 0x20 then .error .controlCharacter
      else do
        let (cs, rest) ← readChars rest
        .ok (c :: cs, rest)
termination_by text.length
decreasing_by all_goals (simp; try omega)

/-- Reads a string after its opening quotation mark. -/
def readString (text : List Char) : Except Fault (String × List Char) := do
  let (cs, rest) ← readChars text
  .ok (String.ofList cs, rest)

/-! ## Words -/

/-- Reads the letters of a word. -/
def readWord : List Char → List Char → Except Fault (List Char)
  | [], text => .ok text
  | _ :: _, [] => .error .endInValue
  | c :: cs, d :: text => if c = d then readWord cs text else .error .expectedWord

/-! ## Numbers -/

/-- A number in the course of reading, `significand · 10^exponent`. -/
structure Scaled where
  /-- The digits collected so far, at most 64 bits. -/
  significand : Nat
  /-- The power of ten. -/
  exponent : Int
  deriving Repr, DecidableEq

/-- Whether a significand with one more digit fits into 64 bits. -/
def fits (significand : Nat) (digit : Char) : Bool :=
  significand * 10 + digitValue digit < Nat.pow 2 64

/-- Collects digits before the point.  Once one does not fit, it and all after it
count as places. -/
def Scaled.whole (x : Scaled) : List Char → Scaled
  | [] => x
  | d :: ds =>
      if fits x.significand d then
        Scaled.whole { x with significand := x.significand * 10 + digitValue d } ds
      else { x with exponent := x.exponent + (ds.length + 1) }

/-- Collects digits after the point.  Once one does not fit, it and all after it
are dropped. -/
def Scaled.fraction (x : Scaled) : List Char → Scaled
  | [] => x
  | d :: ds =>
      if fits x.significand d then
        Scaled.fraction ⟨x.significand * 10 + digitValue d, x.exponent - 1⟩ ds
      else x

/-- Divides by a power of ten in several steps, since no float is as large as
the powers that may be needed.  After so many steps nothing is left. -/
def divideBy : Nat → Float → Nat → Float
  | 0, x, _ => x
  | n + 1, x, places =>
      if places ≤ 308 then x / Float.ofScientific 1 false places
      else if x == 0 then x
      else divideBy n (x / Float.ofScientific 1 false 308) (places - 308)

/-- The float of a scaled number, if it is not too large. -/
def Scaled.float? (x : Scaled) : Option Float :=
  let s := (UInt64.ofNat x.significand).toFloat
  if x.exponent < 0 then some (divideBy 4 s (-x.exponent).toNat)
  else if x.exponent ≤ 308 then
    let y := s * Float.ofScientific 1 false x.exponent.toNat
    if y.isInf then none else some y
  else if x.significand = 0 then some 0
  else none

/-- A float as it was found, with its sign. -/
def foundFloat (negative : Bool) (x : Float) : Found :=
  .float (Decimal.shortestText (if negative then -x else x))

/-- The number that was read. -/
def Scaled.found (x : Scaled) (negative : Bool) : Except Fault Found :=
  match x.float? with
  | some y => .ok (foundFloat negative y)
  | none => .error .numberOutOfRange

/-- A number without fraction and exponent: whole if it fits, and negative zero
is a float. -/
def Scaled.foundWhole (x : Scaled) (negative : Bool) : Except Fault Found :=
  if x.exponent ≠ 0 then x.found negative
  else if negative then
    if 0 < x.significand ∧ x.significand ≤ Nat.pow 2 63 then .ok (.integer (-x.significand))
    else x.found negative
  else .ok (.integer x.significand)

/-- Adds the exponent that was written.  One too large for 32 bits makes the
number zero if it is negative, and too large otherwise. -/
def Scaled.shift (x : Scaled) (negativeExponent : Bool) (digits : List Char) :
    Except Fault Scaled :=
  let e := numeral 10 digits
  if Nat.pow 2 31 ≤ e then
    if x.significand ≠ 0 ∧ !negativeExponent then .error .numberOutOfRange else .ok ⟨0, 0⟩
  else .ok { x with exponent := if negativeExponent then x.exponent - e else x.exponent + e }

/-- The fault where a digit should be. -/
def noDigit : List Char → Fault
  | [] => .endInValue
  | _ => .invalidNumber

/-- Reads the exponent of a number after its `e`. -/
def readExponent (negative : Bool) (x : Scaled) (text : List Char) :
    Except Fault (Found × List Char) :=
  let (negativeExponent, text) :=
    match text with
    | '+' :: rest => (false, rest)
    | '-' :: rest => (true, rest)
    | rest => (false, rest)
  let digits := text.takeWhile isDigit
  if digits.isEmpty then .error (noDigit text)
  else do
    let y ← x.shift negativeExponent digits
    let found ← y.found negative
    .ok (found, text.dropWhile isDigit)

/-- Reads the fraction of a number after its point. -/
def readFraction (negative : Bool) (x : Scaled) (text : List Char) :
    Except Fault (Found × List Char) :=
  let digits := text.takeWhile isDigit
  let y := x.fraction digits
  if digits.isEmpty then .error (noDigit text)
  else
    match text.dropWhile isDigit with
    | 'e' :: rest | 'E' :: rest => readExponent negative y rest
    | rest => do
        let found ← y.found negative
        .ok (found, rest)

/-- Reads a number from its first digit on. -/
def readNumber (negative : Bool) (text : List Char) : Except Fault (Found × List Char) :=
  let digits := text.takeWhile isDigit
  let x := Scaled.whole ⟨0, 0⟩ digits
  match digits with
  | [] => .error (noDigit text)
  | '0' :: _ :: _ => .error .invalidNumber
  | _ =>
      match text.dropWhile isDigit with
      | '.' :: rest => readFraction negative x rest
      | 'e' :: rest | 'E' :: rest => readExponent negative x rest
      | rest => do
          let found ← x.foundWhole negative
          .ok (found, rest)

end Rebac.Json
