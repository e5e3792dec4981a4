import PathGuard.Ascii

/-!
# Binary floating point of 64 bits

Values of the 64-bit binary format as exact numbers, and the rounding of a fraction to the nearest
of them. A finite value is a significand times a power of two; the significand has 53 bits unless
the power is the least one, `2 ^ (-1074)`.

## Main definitions

- `Binary64`: a value
- `Binary64.round`: the value nearest to a fraction, of two the one whose significand is even
- `Binary64.ofDecimal`: the value nearest to a decimal number
-/

namespace PathGuard

/-- A value of the 64-bit binary format. -/
inductive Binary64 where
  /-- The significand times two to the exponent, with a sign. -/
  | finite (negative : Bool) (significand : Nat) (exponent : Int)
  | infinite (negative : Bool)
  | nan
  deriving DecidableEq, Repr

namespace Binary64

/-- The exponent of the smallest positive value. -/
def minExponent : Int := -1074

/-- The exponent of the largest values. -/
def maxExponent : Int := 971

/-- The number that no significand reaches. -/
def significandLimit : Nat := Nat.pow 2 53

/-- Zero with a sign. -/
def zero (negative : Bool) : Binary64 := finite negative 0 minExponent

/-- Whether a value is zero. -/
def isZero : Binary64 → Bool
  | finite _ significand _ => significand == 0
  | _ => false

/-- Whether a value is infinite. -/
def isInfinite : Binary64 → Bool
  | infinite _ => true
  | _ => false

/-- The integer nearest to a fraction; a half goes to the even neighbour. -/
def divHalfEven (num den : Nat) : Nat :=
  let quotient := num / den
  let twice := 2 * (num % den)
  if twice < den then quotient
  else if twice = den then quotient + quotient % 2
  else quotient + 1

/-- A fraction divided by a power of two. -/
def scaleDown (num den : Nat) (exponent : Int) : Nat × Nat :=
  if 0 ≤ exponent then (num, den * Nat.pow 2 exponent.toNat)
  else (num * Nat.pow 2 (-exponent).toNat, den)

/-- The power of two that a positive fraction reaches: it is at least that power and less than
    twice as much. -/
def magnitude (num den : Nat) : Int :=
  let estimate := (num.log2 : Int) - den.log2
  let (n, d) := scaleDown num den estimate
  if d ≤ n then estimate else estimate - 1

/-- The value nearest to a positive fraction. -/
def round (negative : Bool) (num den : Nat) : Binary64 :=
  let exponent := max (magnitude num den - 52) minExponent
  let (n, d) := scaleDown num den exponent
  let significand := divHalfEven n d
  let (significand, exponent) :=
    if significand = significandLimit then (significandLimit / 2, exponent + 1)
    else (significand, exponent)
  if maxExponent < exponent then infinite negative else finite negative significand exponent

/-- The value nearest to a decimal number, given by its digits and the power of ten by which they
    are multiplied. Numbers of less than `10 ^ (-400)` are zero, and those of more than `10 ^ 400`
    are infinite, without further work. -/
def ofDecimal (negative : Bool) (digits : List Char) (power : Int) : Binary64 :=
  let digits := digits.dropWhile (· == '0')
  let top := (digits.length : Int) + power
  if digits.isEmpty then zero negative
  else if top < -400 then zero negative
  else if 400 < top then infinite negative
  else if 0 ≤ power then round negative (Ascii.decimal digits * Nat.pow 10 power.toNat) 1
  else round negative (Ascii.decimal digits) (Nat.pow 10 (-power).toNat)

end Binary64

end PathGuard
