import PathGuard.Binary64.Decimal
import PathGuard.Toml.Basic

/-!
# Unquoted TOML values

Truth values, integers, floating-point numbers, dates and times: the values that are written without
quotation marks. What kind of value a text is shows in its first characters. A text whose kind is a
number and that turns out to write none, or one that is too large, is a value all the same, which
whoever looks at it refuses.

## Main definitions

- `isBlank`: the blanks within a line
- `Scalar.ungroup?`: a text without the underscores between its digits
- `Scalar.isFloat`: the texts of floating-point numbers
- `Scalar.ofChars?`: the value that a text writes
- `Scalar.scan`: an unquoted text at the start of a line's remainder
-/

namespace PathGuard.Toml

def isBlank (c : Char) : Bool :=
  c == ' ' || c == '\t'

namespace Scalar

/-- A text without its underscores, each of which must stand between digits. The flag says whether
    the character before was a digit. -/
def ungroupFrom (isDigit : Char → Bool) : Bool → List Char → Option (List Char)
  | _, [] => some []
  | _, ['_'] => none
  | afterDigit, '_' :: c :: cs =>
    if afterDigit && isDigit c then (ungroupFrom isDigit true cs).map (c :: ·) else none
  | _, c :: cs => (ungroupFrom isDigit (isDigit c) cs).map (c :: ·)

/-- A text without its underscores, each of which must stand between digits. Other characters are
    not looked at. -/
def ungroup? (isDigit : Char → Bool) (cs : List Char) : Option (List Char) :=
  ungroupFrom isDigit false cs

/-- A digit of any base; an underscore between such digits is in its place in every integer. -/
def isAnyDigit (c : Char) : Bool :=
  Ascii.isDigitOf 16 c

/-- The integer of a text without its mark of the base. Without digits it is none. -/
def ofBase? (base : Nat) (cs : List Char) : Option Value :=
  if cs.all fun c => c == '_' || Ascii.isDigitOf base c then
    (ungroup? isAnyDigit cs).map fun digits =>
      if digits.isEmpty then .illegible else .integer (Ascii.toNat base digits)
  else none

/-- The integer of a text with its sign, of which nothing but the underscores has been looked at. -/
def integer? (cs : List Char) : Option Value :=
  (ungroup? isAnyDigit cs).map fun cs =>
    match Ascii.integer? cs with
    | some n => .integer n
    | none => .illegible

/-- The floating-point number of a text with its sign. -/
def float? (cs : List Char) : Option Value := do
  let (negative, unsigned) := Ascii.splitSign (← ungroup? Char.isDigit cs)
  let x ← Binary64.decimal? negative unsigned
  return if x.isInfinite then .illegible else .float x

def isGrouped (c : Char) : Bool :=
  c.isDigit || c == '_'

/-- What follows digits and underscores, of which one at least is a digit. The flag says whether a
    zero may come before other digits. -/
def skipDigits? (zeros : Bool) (cs : List Char) : Option (List Char) :=
  let (grouped, rest) := cs.span isGrouped
  match (grouped.filter Char.isDigit).length with
  | 0 => none
  | 1 => some rest
  | _ => if !zeros && cs.head? == some '0' then none else some rest

/-- Whether a text without its sign has the parts of a floating-point number. -/
def isFloat (cs : List Char) : Bool :=
  let rest? : Option (List Char) := do
    let rest ← skipDigits? false cs
    let rest ← match rest with
      | '.' :: rest => skipDigits? true rest
      | rest => some rest
    match rest with
    | [] => some []
    | c :: rest =>
      if c = 'e' ∨ c = 'E' then skipDigits? true (Ascii.splitSign rest).2 else some (c :: rest)
  rest? == some []

def isFloatMark (c : Char) : Bool :=
  c == '.' || c == 'e' || c == 'E'

/-- The number, date or time of a text, which is given with and without its sign. What follows the
    first digits tells them apart. Of blanks, only a space is looked for, and no number has one. -/
def numeric? (cs unsigned : List Char) : Option Value :=
  let (digits, rest) := unsigned.span Char.isDigit
  match rest with
  | [] =>
    if digits.isEmpty then none
    else if digits.head? == some '0' && 1 < digits.length then none
    else integer? cs
  | c :: _ =>
    if c = '-' ∨ c = ':' then (Datetime.ofChars? cs).map .datetime
    else if rest.contains ' ' then none
    else if rest.any isFloatMark then if isFloat unsigned then float? cs else none
    else if c = '_' then if digits.head? == some '0' then none else integer? cs
    else none

def ofChars? (cs : List Char) : Option Value :=
  match cs with
  | 't' :: 'r' :: 'u' :: 'e' :: [] => some (.boolean true)
  | 'f' :: 'a' :: 'l' :: 's' :: 'e' :: [] => some (.boolean false)
  | '0' :: 'x' :: digits => ofBase? 16 digits
  | '0' :: 'o' :: digits => ofBase? 8 digits
  | '0' :: 'b' :: digits => ofBase? 2 digits
  | cs =>
    let (negative, unsigned) := Ascii.splitSign cs
    if unsigned = "inf".toList then some (.float (.infinite negative))
    else if unsigned = "nan".toList then some (.float .nan)
    else numeric? cs unsigned

/-- A character of a word: any that has no meaning of its own between values. -/
def isScalarChar (c : Char) : Bool :=
  !"=,[]\x7b\x7d \t#\r\n".toList.contains c

def isQuote (c : Char) : Bool :=
  c == '\x22' || c == '\x27'

/-- Splits off what is left of an unquoted text. The blanks that were read last are given in
    reverse: they belong to the text if another word follows, and a word does not begin with a
    quotation mark. -/
def scanFrom : List Char → List Char → List Char × List Char
  | blanks, [] => ([], blanks.reverse)
  | blanks, c :: cs =>
    if isBlank c then scanFrom (c :: blanks) cs
    else if isScalarChar c && (blanks.isEmpty || !isQuote c) then
      let (text, rest) := scanFrom [] cs
      (blanks.reverse ++ c :: text, rest)
    else ([], blanks.reverse ++ c :: cs)

/-- Splits off an unquoted text: the words that stand next to one another, with the blanks between
    them. -/
def scan (cs : List Char) : List Char × List Char :=
  scanFrom [] cs

end Scalar

end PathGuard.Toml
