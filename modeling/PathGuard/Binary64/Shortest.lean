import PathGuard.Binary64.Basic

/-!
# Shortest decimal text

The decimal text of a 64-bit binary value: the fewest significant digits that round back to it, of
those the nearest to it, and the larger of two that are equally near. The digits are written
positionally, without an exponent.

## Main definitions

- `Binary64.Interval`: the numbers that round to a value
- `Binary64.shortest`: the digits, and the place of the decimal point
- `Binary64.text`: the text
-/

namespace PathGuard.Binary64

/-- The numbers that round to a positive value, as multiples of `unit / scale`. -/
structure Interval where
  low : Nat
  value : Nat
  high : Nat
  /-- Whether the two ends round to the value too. -/
  closed : Bool
  unit : Nat
  scale : Nat

/-- The numbers that round to a positive value. They reach half-way to its neighbours, of which the
    lower is only half as far away where the significand is a power of two. -/
def interval (significand : Nat) (exponent : Int) : Interval :=
  let narrow := significand = significandLimit / 2 ∧ minExponent < exponent
  { low := if narrow then 4 * significand - 1 else 4 * significand - 2
    value := 4 * significand
    high := 4 * significand + 2
    closed := significand % 2 = 0
    unit := Nat.pow 2 (exponent - 2).toNat
    scale := Nat.pow 2 (2 - exponent).toNat }

namespace Interval

/-- Whether the fraction `num / den` rounds to the value. -/
def contains (i : Interval) (num den : Nat) : Bool :=
  let low := i.low * i.unit * den
  let high := i.high * i.unit * den
  let mid := num * i.scale
  if i.closed then low ≤ mid && mid ≤ high else low < mid && mid < high

end Interval

/-- The number of decimal digits of a number. -/
def digitCount (n : Nat) : Nat :=
  (Nat.toDigits 10 n).length

/-- The place of the decimal point of a positive fraction: the least power of ten above it. Every
    positive value is more than `10 ^ (-330)`. -/
def pointPlace (num den : Nat) : Int :=
  (digitCount (num * Nat.pow 10 330 / den) : Int) - 330

/-- A fraction multiplied by a power of ten. -/
def scaleTen (num den : Nat) (power : Int) : Nat × Nat :=
  if 0 ≤ power then (num * Nat.pow 10 power.toNat, den)
  else (num, den * Nat.pow 10 (-power).toNat)

/-- Of the decimal numbers with a given last place, the one that rounds to a value and is nearest to
    it, as a multiple of that place. -/
def candidate? (i : Interval) (place : Int) : Option Nat :=
  let (num, den) := scaleTen (i.value * i.unit) i.scale (-place)
  let below := num / den
  let rounds (n : Nat) : Bool :=
    let (a, b) := scaleTen n 1 place
    i.contains a b
  match rounds below, rounds (below + 1) with
  | true, true => some (if 2 * (num % den) < den then below else below + 1)
  | true, false => some below
  | false, true => some (below + 1)
  | false, false => none

/-- The first candidate when the last place moves down one digit at a time. -/
def search (i : Interval) (point : Int) : List Nat → Nat × Int
  | [] => (0, point)
  | count :: counts =>
    match candidate? i (point - count) with
    | some n => (n, point - count)
    | none => search i point counts

/-- The fewest digits that round to a positive value, as a number and the power of ten of its last
    digit. Seventeen digits always suffice. -/
def shortest (significand : Nat) (exponent : Int) : Nat × Int :=
  let i := interval significand exponent
  search i (pointPlace (i.value * i.unit) i.scale)
    ((List.range 17).map (· + 1))

/-- Writes a number of which the last digit stands for a power of ten. -/
def positional (n : Nat) (place : Int) : List Char :=
  let digits := Nat.toDigits 10 n
  if 0 ≤ place then digits ++ List.replicate place.toNat '0'
  else
    let behind := (-place).toNat
    let padded := List.replicate (behind + 1 - digits.length) '0' ++ digits
    let whole := padded.take (padded.length - behind)
    let fraction := padded.drop (padded.length - behind)
    match (fraction.reverse.dropWhile (· == '0')).reverse with
    | [] => whole
    | fraction => whole ++ '.' :: fraction

/-- The text of a value. A whole number has no decimal point. -/
def text : Binary64 → String
  | nan => "NaN"
  | infinite negative => if negative then "-inf" else "inf"
  | finite negative significand exponent =>
    let digits :=
      if significand = 0 then ['0']
      else
        let (n, place) := shortest significand exponent
        positional n place
    String.ofList (if negative then '-' :: digits else digits)

end PathGuard.Binary64
