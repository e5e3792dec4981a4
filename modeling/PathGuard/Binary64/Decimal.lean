import PathGuard.Binary64.Basic

/-!
# Reading decimal texts

The value nearest to the number that a decimal text writes: digits with or without a point, and
perhaps an exponent.
-/

namespace PathGuard.Binary64

/-- The power of ten that an exponent writes, if the text does not end. -/
def exponent? : List Char → Option Int
  | [] => some 0
  | c :: cs => if c = 'e' ∨ c = 'E' then Ascii.integer? cs else none

/-- The value of a decimal text without its sign. There must be a digit before or after the point,
    and there need not be a point. -/
def decimal? (negative : Bool) (cs : List Char) : Option Binary64 := do
  let (whole, rest) := cs.span Char.isDigit
  let (fraction, rest) := match rest with
    | '.' :: rest => rest.span Char.isDigit
    | rest => ([], rest)
  if whole.isEmpty && fraction.isEmpty then none
  let power ← exponent? rest
  return ofDecimal negative (whole ++ fraction) (power - fraction.length)

end PathGuard.Binary64
