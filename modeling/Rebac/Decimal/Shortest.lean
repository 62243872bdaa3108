/-!
# The shortest decimal of a float

A finite float `m · 2^q` is the nearest one to every real of an interval around
it, the ends included if `m` is even.  Its shortest decimal is the decimal in
that interval with the fewest digits.  If several have so few digits it is the one
nearest to the float, and of two equally near the one with an even last digit.

The decimals with a given last place form a grid.  If a grid has a point in the
interval, then one of the two grid points next to the float lies in it.  So the
grids are tried from the coarsest on, with those two points each.
-/

namespace Rebac.Decimal

/-- A float without its sign, `mantissa · 2^exponent`. -/
structure Binary where
  /-- The whole number. -/
  mantissa : Nat
  /-- The power of two. -/
  exponent : Int
  /-- Whether the next smaller float is only half as far away as the next larger
  one. -/
  tightBelow : Bool
  deriving Repr, DecidableEq

/-- A finite float without its sign. -/
def Binary.ofFloat (x : Float) : Binary :=
  let bits := x.toBits.toNat
  let fraction : Nat := bits % Nat.pow 2 52
  let power : Nat := bits / Nat.pow 2 52 % Nat.pow 2 11
  if power = 0 then ⟨fraction, -1074, false⟩
  else ⟨fraction + Nat.pow 2 52, (power : Int) - 1075, fraction = 0 && 1 < power⟩

/-- A decimal without sign, `digits · 10^place`. -/
structure Digits where
  digits : Nat
  place : Int
  deriving Repr, DecidableEq

/-- The decimal with this last place that stands for the float, if there is
one.  All quantities are scaled by four, so that the ends of the interval are
whole. -/
def Binary.onGrid? (b : Binary) (place : Int) : Option Digits :=
  let scale := Nat.pow 2 (b.exponent - 2).toNat * Nat.pow 10 (-place).toNat
  let unit := Nat.pow 2 (2 - b.exponent).toNat * Nat.pow 10 place.toNat
  let value := 4 * b.mantissa * scale
  let low := (4 * b.mantissa - if b.tightBelow then 1 else 2) * scale
  let high := (4 * b.mantissa + 2) * scale
  let closed := b.mantissa % 2 = 0
  let inside (n : Nat) : Bool :=
    if closed then low ≤ n * unit ∧ n * unit ≤ high else low < n * unit ∧ n * unit < high
  let below := value / unit
  let above := below + 1
  let aboveNearer :=
    let gapBelow := value - below * unit
    let gapAbove := above * unit - value
    gapAbove < gapBelow ∨ (gapAbove = gapBelow ∧ above % 2 = 0)
  if inside below && inside above then some ⟨if aboveNearer then above else below, place⟩
  else if inside below then some ⟨below, place⟩
  else if inside above then some ⟨above, place⟩
  else none

/-- Tries so many grids, from a place down. -/
def Binary.search (b : Binary) : Nat → Int → Digits
  | 0, place => ⟨b.mantissa, place⟩
  | n + 1, place =>
      match b.onGrid? place with
      | some d => d
      | none => b.search n (place - 1)

/-- The shortest decimal of a float other than zero.  Floats are less than
`10^309`, and the finest grid that is ever needed has the place -324. -/
def Binary.shortest (b : Binary) : Digits := b.search 640 309

/-- So many zeros. -/
def zeros (n : Nat) : String := String.ofList (List.replicate n '0')

/-- An exponent as text, always with its sign. -/
def exponentText (n : Int) : String := (if n < 0 then "e" else "e+") ++ toString n

/-- A decimal as text.  It is positional with a point from `10^-5` on and below
`10^16`, and has an exponent otherwise. -/
def Digits.text (d : Digits) : String :=
  let digits := (toString d.digits).toList
  let first := String.ofList (digits.take 1)
  let point : Int := digits.length + d.place
  if 0 ≤ d.place ∧ point ≤ 16 then
    String.ofList digits ++ zeros d.place.toNat ++ ".0"
  else if 0 < point ∧ point ≤ 16 then
    String.ofList (digits.take point.toNat) ++ "." ++ String.ofList (digits.drop point.toNat)
  else if -5 < point ∧ point ≤ 0 then
    "0." ++ zeros (-point).toNat ++ String.ofList digits
  else if digits.length = 1 then
    first ++ exponentText (point - 1)
  else
    first ++ "." ++ String.ofList (digits.drop 1) ++ exponentText (point - 1)

/-- A finite float as its shortest decimal. -/
def shortestText (x : Float) : String :=
  let b := Binary.ofFloat x
  let sign := if x.toBits.toNat / Nat.pow 2 63 = 1 then "-" else ""
  sign ++ if b.mantissa = 0 then "0.0" else b.shortest.text

end Rebac.Decimal
