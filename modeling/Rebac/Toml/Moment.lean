import Rebac.Text.Digit

/-!
# Dates and times of TOML

A moment is a date, a time, or a date and a time with an optional offset.  Only its
form and its ranges are checked.  The value is not kept, since no setting is one.
-/

namespace Rebac.Toml

open Text (isDigit numeral)

/-- Reads a number of so many digits that lies in a range. -/
def readField (length low high : Nat) (text : List Char) : Option (Nat × List Char) :=
  let digits := text.take length
  let n := numeral 10 digits
  if digits.length = length ∧ digits.all isDigit ∧ low ≤ n ∧ n ≤ high then
    some (n, text.drop length)
  else none

/-- Reads one character. -/
def readMark (mark : Char) : List Char → Option (List Char)
  | c :: text => if c = mark then some text else none
  | [] => none

/-- Whether a year has a 29 February. -/
def isLeap (year : Nat) : Bool := year % 4 = 0 ∧ (year % 100 ≠ 0 ∨ year % 400 = 0)

/-- The number of days of a month. -/
def daysIn (year month : Nat) : Nat :=
  match month with
  | 2 => if isLeap year then 29 else 28
  | 4 | 6 | 9 | 11 => 30
  | _ => 31

/-- Reads a date. -/
def readDate (text : List Char) : Option (List Char) := do
  let (year, text) ← readField 4 0 9999 text
  let text ← readMark '-' text
  let (month, text) ← readField 2 1 12 text
  let text ← readMark '-' text
  let (_, text) ← readField 2 1 (daysIn year month) text
  some text

/-- The text after a fraction of a second, if there is one. -/
def skipSecondFraction : List Char → List Char
  | '.' :: c :: text => if isDigit c then text.dropWhile isDigit else '.' :: c :: text
  | text => text

/-- Reads a time.  A minute may have a 61st second. -/
def readTime (text : List Char) : Option (List Char) := do
  let (_, text) ← readField 2 0 23 text
  let text ← readMark ':' text
  let (_, text) ← readField 2 0 59 text
  let text ← readMark ':' text
  let (_, text) ← readField 2 0 60 text
  some (skipSecondFraction text)

/-- Reads hours and minutes. -/
def readHours (text : List Char) : Option (List Char) := do
  let (_, text) ← readField 2 0 23 text
  let text ← readMark ':' text
  let (_, text) ← readField 2 0 59 text
  some text

/-- Reads an offset, if there is one. -/
def readOffset : List Char → Option (List Char)
  | 'Z' :: text | 'z' :: text => some text
  | '+' :: text | '-' :: text => readHours text
  | text => some text

/-- Reads a time and its offset after a date, if there is one. -/
def readTimeAfterDate (text : List Char) : Option (List Char) :=
  match text with
  | 'T' :: rest | 't' :: rest | ' ' :: rest =>
      match readTime rest with
      | some rest => readOffset rest
      | none => some text
  | _ => some text

/-- Reads a moment. -/
def readMoment (text : List Char) : Option (List Char) :=
  match readDate text with
  | some rest => readTimeAfterDate rest
  | none => readTime text

end Rebac.Toml
