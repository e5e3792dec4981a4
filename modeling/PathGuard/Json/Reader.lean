import PathGuard.Json.Basic

/-!
# Reading JSON

The value that a JSON text writes. The grammar is the strict one: blanks are the space, the tab and
the two line ends, a number has no leading zeros, and nothing but blanks may follow the value.

## Main definitions

- `Json.scanString`: the pieces of a string, up to its closing quotation mark
- `Json.Piece.decode`: the text that pieces make
- `Json.scanNumber`: a number as it is written
- `Json.parse?`: the value of a whole text
-/

namespace PathGuard.Json

def isBlank (c : Char) : Bool :=
  c == ' ' || c == '\t' || c == '\n' || c == '\r'

def skipBlanks (cs : List Char) : List Char :=
  cs.dropWhile isBlank

def hexUnit? (a b c d : Char) : Option Nat := do
  let high := 16 * (← Ascii.hexValue? a) + (← Ascii.hexValue? b)
  let low := 16 * (← Ascii.hexValue? c) + (← Ascii.hexValue? d)
  return 256 * high + low

/-- A part of a string: a character, or a unit of 16 bits that is escaped by number. -/
inductive Piece where
  | char (c : Char)
  | unit (n : Nat)
  deriving DecidableEq, Repr

/-- The character that a letter after a backslash stands for. -/
def escapedChar? : Char → Option Char
  | '\x22' => some '\x22'
  | '\\' => some '\\'
  | '/' => some '/'
  | 'b' => some '\x08'
  | 'f' => some '\x0c'
  | 'n' => some '\n'
  | 'r' => some '\r'
  | 't' => some '\t'
  | _ => none

/-- The pieces of a string whose opening mark has been read, and what follows its closing mark. -/
def scanString : List Char → Option (List Piece × List Char)
  | [] => none
  | '\x22' :: rest => some ([], rest)
  | '\\' :: 'u' :: a :: b :: c :: d :: rest => do
    let n ← hexUnit? a b c d
    let (pieces, rest) ← scanString rest
    return (.unit n :: pieces, rest)
  | '\\' :: c :: rest => do
    let e ← escapedChar? c
    let (pieces, rest) ← scanString rest
    return (.char e :: pieces, rest)
  | c :: rest => do
    if c.toNat < 0x20 then none
    let (pieces, rest) ← scanString rest
    return (.char c :: pieces, rest)

def isHighSurrogate (n : Nat) : Bool :=
  0xD800 ≤ n && n ≤ 0xDBFF

def isLowSurrogate (n : Nat) : Bool :=
  0xDC00 ≤ n && n ≤ 0xDFFF

def ofSurrogates (high low : Nat) : Char :=
  Char.ofNat (0x10000 + (high - 0xD800) * 0x400 + (low - 0xDC00))

/-- The text that pieces make, unless a surrogate stands without its partner. -/
def Piece.decode : List Piece → Option (List Char)
  | [] => some []
  | .char c :: rest => (Piece.decode rest).map (c :: ·)
  | .unit high :: .unit low :: rest =>
    if isHighSurrogate high then
      if isLowSurrogate low then (Piece.decode rest).map (ofSurrogates high low :: ·) else none
    else if isLowSurrogate high then none
    else (Piece.decode (.unit low :: rest)).map (Char.ofNat high :: ·)
  | .unit n :: rest =>
    if isHighSurrogate n || isLowSurrogate n then none
    else (Piece.decode rest).map (Char.ofNat n :: ·)

def Text.ofPieces (pieces : List Piece) : Text :=
  match Piece.decode pieces with
  | some cs => .unicode (String.ofList cs)
  | none => .broken

/-- Splits off the digits at the start of a text; there must be one. -/
def scanDigits (cs : List Char) : Option (List Char × List Char) :=
  match cs.span Char.isDigit with
  | ([], _) => none
  | (digits, rest) => some (digits, rest)

/-- Splits off the digits before the point; only a lone zero begins with a zero. -/
def scanWhole : List Char → Option (List Char × List Char)
  | '0' :: rest => some (['0'], rest)
  | cs => scanDigits cs

/-- Splits off a point and digits, if there is a point. -/
def scanFraction : List Char → Option (List Char × List Char)
  | '.' :: rest => (scanDigits rest).map fun (digits, rest) => ('.' :: digits, rest)
  | cs => some ([], cs)

def scanSign : List Char → List Char × List Char
  | '+' :: rest => (['+'], rest)
  | '-' :: rest => (['-'], rest)
  | cs => ([], cs)

/-- Splits off an exponent, if there is one. -/
def scanExponent : List Char → Option (List Char × List Char)
  | [] => some ([], [])
  | c :: rest =>
    if c = 'e' ∨ c = 'E' then
      let (sign, rest) := scanSign rest
      (scanDigits rest).map fun (digits, rest) => (c :: sign ++ digits, rest)
    else some ([], c :: rest)

def scanNumber (cs : List Char) : Option (List Char × List Char) := do
  let (sign, rest) := match cs with
    | '-' :: rest => (['-'], rest)
    | cs => ([], cs)
  let (whole, rest) ← scanWhole rest
  let (fraction, rest) ← scanFraction rest
  let (exponent, rest) ← scanExponent rest
  return (sign ++ whole ++ fraction ++ exponent, rest)

def scanWord : List Char → List Char → Option (List Char)
  | [], cs => some cs
  | _ :: _, [] => none
  | w :: word, c :: cs => if w = c then scanWord word cs else none

mutual

/-- Reads a value at the start of a text that no blank precedes. -/
def readValue : Nat → List Char → Option (Json × List Char)
  | 0, _ => none
  | _ + 1, [] => none
  | fuel + 1, c :: rest =>
    match c with
    | 'n' => (scanWord "ull".toList rest).map fun rest => (null, rest)
    | 't' => (scanWord "rue".toList rest).map fun rest => (bool true, rest)
    | 'f' => (scanWord "alse".toList rest).map fun rest => (bool false, rest)
    | '\x22' => do
      let (pieces, rest) ← scanString rest
      return (string (.ofPieces pieces), rest)
    | '[' =>
      match skipBlanks rest with
      | ']' :: rest => some (array [], rest)
      | rest => do
        let (items, rest) ← readItems fuel rest
        return (array items, rest)
    | '\x7b' =>
      match skipBlanks rest with
      | '\x7d' :: rest => some (object [], rest)
      | rest => do
        let (members, rest) ← readMembers fuel rest
        return (object members, rest)
    | c => do
      let (literal, rest) ← scanNumber (c :: rest)
      return (number (String.ofList literal), rest)

/-- Reads the items of an array that has at least one, and its end. -/
def readItems : Nat → List Char → Option (List Json × List Char)
  | 0, _ => none
  | fuel + 1, cs => do
    let (item, rest) ← readValue fuel cs
    match skipBlanks rest with
    | ']' :: rest => return ([item], rest)
    | ',' :: rest =>
      let (items, rest) ← readItems fuel (skipBlanks rest)
      return (item :: items, rest)
    | _ => none

/-- Reads the members of an object that has at least one, and its end. -/
def readMembers : Nat → List Char → Option (List (Text × Json) × List Char)
  | 0, _ => none
  | fuel + 1, cs => do
    let '\x22' :: rest := cs | none
    let (pieces, rest) ← scanString rest
    let ':' :: rest := skipBlanks rest | none
    let (value, rest) ← readValue fuel (skipBlanks rest)
    let member := (Text.ofPieces pieces, value)
    match skipBlanks rest with
    | '\x7d' :: rest => return ([member], rest)
    | ',' :: rest =>
      let (members, rest) ← readMembers fuel (skipBlanks rest)
      return (member :: members, rest)
    | _ => none

end

/-- The value that a whole text writes. Each step of reading spends one of twice as many units of
    fuel as there are characters, and no two steps in a row read none. -/
def parse? (text : String) : Option Json := do
  let cs := text.toList
  let (value, rest) ← readValue (2 * cs.length + 2) (skipBlanks cs)
  if (skipBlanks rest).isEmpty then some value else none

end PathGuard.Json
