import PathGuard.Glob.Flaw

/-!
# Character classes

A class between square brackets lists characters and ranges of characters, and stands for a set of
bytes. `CharClass.Draft` is a class while it is being read; `CharClass.Draft.read` is the effect of
one character on it.

## Main definitions

- `CharClass`: the ranges of a class, and whether it is negated
- `CharClass.Draft.read`: one step of reading a class
- `CharClass.holds`: the bytes that a class stands for
-/

namespace PathGuard.Glob

/-- The ranges listed between square brackets. A single character is a range of one. -/
structure CharClass where
  negated : Bool
  ranges : List (Char × Char)
  deriving DecidableEq, Repr

namespace CharClass

/-- A class while it is being read. -/
structure Draft where
  negated : Bool
  /-- The ranges so far, last first. -/
  ranges : List (Char × Char)
  /-- A dash has been read that may continue the last range. -/
  dashed : Bool
  deriving DecidableEq, Repr

/-- What one character does to a class that is being read. -/
inductive Step where
  | more (draft : Draft)
  | done (cls : CharClass)
  | refused (flaw : Flaw)

namespace Draft

/-- A class of which nothing but the bracket, and perhaps the negation, has been read. -/
def start (negated : Bool) : Draft :=
  ⟨negated, [], false⟩

def single (d : Draft) (c : Char) : Draft :=
  { d with ranges := (c, c) :: d.ranges, dashed := false }

def extend (d : Draft) (c : Char) : Step :=
  match d.ranges with
  | [] => .more (d.single c)
  | (first, _) :: before =>
    if c < first then .refused (.invalidRange first c)
    else .more { d with ranges := (first, c) :: before, dashed := false }

/-- The class as it stands at its closing bracket. A dash that no character followed is a member. -/
def finish (d : Draft) : CharClass :=
  ⟨d.negated, (if d.dashed then (d.single '-').ranges else d.ranges).reverse⟩

/-- Reads one character. A closing bracket or a dash that comes first is a member. A later dash
    waits for the end of a range, which the next character gives, be it a dash. -/
def read (d : Draft) (c : Char) : Step :=
  if d.ranges.isEmpty then .more (d.single c)
  else if c = ']' then .done d.finish
  else if d.dashed then d.extend c
  else if c = '-' then .more { d with dashed := true }
  else .more (d.single c)

end Draft

/-- The byte ranges of a range of characters, by their UTF-8 encodings. One character gives each of
    its bytes. Two characters give a range from the last byte of the first to the first byte of the
    second, and singly the bytes before and after. -/
def byteRanges (first last : Char) : List (UInt8 × UInt8) :=
  let lo := String.utf8EncodeChar first
  let hi := String.utf8EncodeChar last
  if first = last then lo.map fun b => (b, b)
  else lo.dropLast.map (fun b => (b, b)) ++ [(lo.getLastD 0, hi.headD 0)]
    ++ hi.tail.map fun b => (b, b)

/-- Whether a byte belongs to the set that a class stands for. -/
def holds (cls : CharClass) (b : UInt8) : Bool :=
  let listed := cls.ranges.any fun (first, last) =>
    (byteRanges first last).any fun (lo, hi) => lo ≤ b && b ≤ hi
  listed != cls.negated

end CharClass

end PathGuard.Glob
