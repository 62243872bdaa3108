import Rebac.Text.Digit

/-!
# Numbers of TOML

A whole number is decimal, with an optional sign and without leading zeros, or
hexadecimal, octal or binary.  It has to fit into 64 bits with a sign.  Single
underscores may stand between digits.

A float is a decimal number with a fraction, an exponent or both.  A float that
rounds to positive infinity is refused.  The value of a float is not kept, since
no setting is one.
-/

namespace Rebac.Toml

open Text (isDigit hexValue? numeral)

/-! ## Runs of digits -/

/-- Reads the digits that follow a digit, without the underscores between them. -/
def readMoreDigits (isDigit : Char → Bool) : List Char → List Char × List Char
  | '_' :: c :: text =>
      if isDigit c then
        let (cs, rest) := readMoreDigits isDigit text
        (c :: cs, rest)
      else ([], '_' :: c :: text)
  | c :: text =>
      if isDigit c then
        let (cs, rest) := readMoreDigits isDigit text
        (c :: cs, rest)
      else ([], c :: text)
  | [] => ([], [])

/-- Reads digits, of which there has to be one. -/
def readDigits (isDigit : Char → Bool) : List Char → Option (List Char × List Char)
  | [] => none
  | c :: text =>
      if isDigit c then
        let (cs, rest) := readMoreDigits isDigit text
        some (c :: cs, rest)
      else none

/-! ## Whole numbers -/

/-- Reads an optional sign and says whether it is a minus. -/
def readSign : List Char → Bool × List Char
  | '+' :: rest => (false, rest)
  | '-' :: rest => (true, rest)
  | rest => (false, rest)

/-- Reads the digits of a decimal number.  A leading zero stands alone. -/
def readDecimal : List Char → Option (List Char × List Char)
  | '0' :: rest => some (['0'], rest)
  | text => readDigits isDigit text

/-- A whole number, if it fits into 64 bits with a sign. -/
def word? (negative : Bool) (n : Nat) : Option Int :=
  if negative then if n ≤ Nat.pow 2 63 then some (-n) else none
  else if n < Nat.pow 2 63 then some n else none

/-- Reads the digits of a whole number in a base. -/
def readInBase (base : Nat) (text : List Char) : Option (Int × List Char) := do
  let (digits, rest) ← readDigits (fun c => (hexValue? c).any (· < base)) text
  let n ← word? false (numeral base digits)
  some (n, rest)

/-- Reads a whole number. -/
def readInteger : List Char → Option (Int × List Char)
  | '0' :: 'x' :: rest => readInBase 16 rest
  | '0' :: 'o' :: rest => readInBase 8 rest
  | '0' :: 'b' :: rest => readInBase 2 rest
  | text => do
      let (negative, text) := readSign text
      let (digits, rest) ← readDecimal text
      let n ← word? negative (numeral 10 digits)
      some (n, rest)

/-! ## Floats -/

/-- Whether a positive decimal number rounds to infinity, given its digits and its
power of ten.  That holds from halfway between the largest float and the next
power of two on.  Numbers of fewer than 300 or more than 320 digits before the point
are decided by that count. -/
def isOverflow (digits : List Char) (exponent : Int) : Bool :=
  let digits := digits.dropWhile (· = '0')
  let places := exponent + digits.length
  if digits.isEmpty ∨ places < 300 then false
  else if 320 < places then true
  else
    let n := numeral 10 digits
    let bound := Nat.pow 2 1024 - Nat.pow 2 970
    if 0 ≤ exponent then bound ≤ n * Nat.pow 10 exponent.toNat
    else bound * Nat.pow 10 (-exponent).toNat ≤ n

/-- Reads an exponent, zero if there is none. -/
def readExponent : List Char → Option (Int × List Char)
  | 'e' :: rest | 'E' :: rest => do
      let (negative, rest) := readSign rest
      let (digits, rest) ← readDigits isDigit rest
      let n := numeral 10 digits
      some (if negative then -n else n, rest)
  | rest => some (0, rest)

/-- Reads the digits after a point, none if there is no point. -/
def readFraction : List Char → Option (List Char × List Char)
  | '.' :: rest => readDigits isDigit rest
  | rest => some ([], rest)

/-- Whether a text starts with the point or the exponent of a float. -/
def startsFloat : List Char → Bool
  | '.' :: _ | 'e' :: _ | 'E' :: _ => true
  | _ => false

/-- Reads a float and gives the rest of the text. -/
def readFloat (text : List Char) : Option (List Char) :=
  let (negative, text) := readSign text
  match text with
  | 'i' :: 'n' :: 'f' :: rest | 'n' :: 'a' :: 'n' :: rest => some rest
  | _ => do
      let (whole, rest) ← readDecimal text
      if startsFloat rest then do
        let (fraction, rest) ← readFraction rest
        let (exponent, rest) ← readExponent rest
        if !negative ∧ isOverflow (whole ++ fraction) (exponent - fraction.length) then none
        else some rest
      else none

end Rebac.Toml
