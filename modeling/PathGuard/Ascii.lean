/-!
# ASCII letters and digits

Digits and the numbers they write, and letters without regard to case. All of this is about ASCII
alone: other characters are neither digits nor letters here.

## Main definitions

- `Ascii.hexValue?`, `Ascii.hexDigit`: the values of hexadecimal digits
- `Ascii.toNat`: the number that digits write in a base
- `Ascii.integer64?`: the integer of 64 bits that a text writes
- `Ascii.lowered`: a text with its letters in lower case
-/

namespace PathGuard.Ascii

def hexValue? (c : Char) : Option Nat :=
  if '0' ≤ c ∧ c ≤ '9' then some (c.toNat - 0x30)
  else if 'a' ≤ c ∧ c ≤ 'f' then some (c.toNat - 0x57)
  else if 'A' ≤ c ∧ c ≤ 'F' then some (c.toNat - 0x37)
  else none

def hexDigit (n : Nat) : Char :=
  if n < 10 then Char.ofNat (0x30 + n) else Char.ofNat (0x57 + n)

/-- Whether a character is a digit of a base up to sixteen. -/
def isDigitOf (base : Nat) (c : Char) : Bool :=
  match hexValue? c with
  | some n => n < base
  | none => false

def toNat (base : Nat) (digits : List Char) : Nat :=
  digits.foldl (fun n c => base * n + (hexValue? c).getD 0) 0

def decimal (digits : List Char) : Nat :=
  toNat 10 digits

/-- Splits off a sign; the flag says whether it is a minus. -/
def splitSign : List Char → Bool × List Char
  | '+' :: cs => (false, cs)
  | '-' :: cs => (true, cs)
  | cs => (false, cs)

def signed (negative : Bool) (n : Nat) : Int :=
  if negative then -(n : Int) else n

/-- The integer that a sign, which may be missing, and digits write. -/
def integer? (cs : List Char) : Option Int :=
  let (negative, digits) := splitSign cs
  if digits.isEmpty || !digits.all Char.isDigit then none
  else some (signed negative (decimal digits))

def isInteger64 (n : Int) : Bool :=
  -(Nat.pow 2 63 : Int) ≤ n && n < Nat.pow 2 63

def integer64? (cs : List Char) : Option Int :=
  (integer? cs).filter isInteger64

def lowered (text : String) : String :=
  String.ofList (text.toList.map Char.toLower)

end PathGuard.Ascii
