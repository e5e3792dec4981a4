import PathGuard.Ascii

/-!
# Quoted TOML strings

The four kinds of strings. Between quotation marks a backslash begins an escape; between apostrophes
nothing does. Tripled marks admit line breaks, drop one that comes first, and admit up to two marks
in a row inside. Control characters other than the tab are not allowed.

## Main definitions

- `Quoted.scanBasic`, `Quoted.scanLiteral`: the strings of one line
- `Quoted.scanLongBasic`, `Quoted.scanLongLiteral`: the strings that admit line breaks
- `Quoted.read?`: a string of any kind
-/

namespace PathGuard.Toml.Quoted

def isPlain (c : Char) : Bool :=
  c == '\t' || (0x20 ≤ c.toNat && c.toNat != 0x7f)

/-- The character with a number; surrogates and numbers that are too large have none. -/
def charOfNat? (n : Nat) : Option Char :=
  if h : n.isValidChar then some (Char.ofNatAux n h) else none

/-- What the letter of an escape begins: a character, or so many hexadecimal digits. -/
def escape? : Char → Option (Char ⊕ Nat)
  | 'b' => some (.inl '\x08')
  | 't' => some (.inl '\t')
  | 'n' => some (.inl '\n')
  | 'f' => some (.inl '\x0c')
  | 'r' => some (.inl '\r')
  | 'e' => some (.inl '\x1b')
  | '\x22' => some (.inl '\x22')
  | '\\' => some (.inl '\\')
  | 'x' => some (.inr 2)
  | 'u' => some (.inr 4)
  | 'U' => some (.inr 8)
  | _ => none

/-- Where the scan of a string stands. -/
inductive Mode where
  | plain
  /-- Between characters, after an escaped line break: blanks and line breaks are dropped. -/
  | trimming
  | escaped
  /-- After a backslash and blanks, before the line break that they escape. -/
  | breaking
  /-- Before the last digits of a numbered escape, with the number so far. -/
  | numbered (left value : Nat)

/-- What a scan gives: the characters of the string, and what follows it. -/
abbrev Scanned := Option (List Char × List Char)

def consChar (c : Char) (scanned : Scanned) : Scanned :=
  scanned.map fun (cs, rest) => (c :: cs, rest)

/-- A string of one line, of which the opening quotation mark has been read. -/
def scanBasic : Mode → List Char → Scanned
  | _, [] => none
  | .escaped, c :: cs =>
    match escape? c with
    | some (.inl e) => consChar e (scanBasic .plain cs)
    | some (.inr count) => scanBasic (.numbered count 0) cs
    | none => none
  | .numbered left value, c :: cs =>
    match Ascii.hexValue? c with
    | none => none
    | some digit =>
      let value := 16 * value + digit
      if 1 < left then scanBasic (.numbered (left - 1) value) cs
      else match charOfNat? value with
        | some e => consChar e (scanBasic .plain cs)
        | none => none
  | _, c :: cs =>
    if c = '\x22' then some ([], cs)
    else if c = '\\' then scanBasic .escaped cs
    else if isPlain c then consChar c (scanBasic .plain cs)
    else none

/-- A string that admits line breaks, of which the opening marks have been read. -/
def scanLongBasic : Mode → List Char → Scanned
  | _, [] => none
  | .escaped, c :: cs =>
    match escape? c with
    | some (.inl e) => consChar e (scanLongBasic .plain cs)
    | some (.inr count) => scanLongBasic (.numbered count 0) cs
    | none =>
      if c = '\n' then scanLongBasic .trimming cs
      else if c = ' ' ∨ c = '\t' then scanLongBasic .breaking cs
      else match c, cs with
        | '\r', '\n' :: cs => scanLongBasic .trimming cs
        | _, _ => none
  | .breaking, '\r' :: '\n' :: cs => scanLongBasic .trimming cs
  | .breaking, c :: cs =>
    if c = '\n' then scanLongBasic .trimming cs
    else if c = ' ' ∨ c = '\t' then scanLongBasic .breaking cs
    else none
  | .numbered left value, c :: cs =>
    match Ascii.hexValue? c with
    | none => none
    | some digit =>
      let value := 16 * value + digit
      if 1 < left then scanLongBasic (.numbered (left - 1) value) cs
      else match charOfNat? value with
        | some e => consChar e (scanLongBasic .plain cs)
        | none => none
  | .trimming, ' ' :: cs => scanLongBasic .trimming cs
  | .trimming, '\t' :: cs => scanLongBasic .trimming cs
  | .trimming, '\n' :: cs => scanLongBasic .trimming cs
  | .trimming, '\r' :: '\n' :: cs => scanLongBasic .trimming cs
  | _, '\x22' :: '\x22' :: '\x22' :: '\x22' :: '\x22' :: cs => some (['\x22', '\x22'], cs)
  | _, '\x22' :: '\x22' :: '\x22' :: '\x22' :: cs => some (['\x22'], cs)
  | _, '\x22' :: '\x22' :: '\x22' :: cs => some ([], cs)
  | _, '\r' :: '\n' :: cs => consChar '\r' (consChar '\n' (scanLongBasic .plain cs))
  | _, c :: cs =>
    if c = '\\' then scanLongBasic .escaped cs
    else if isPlain c ∨ c = '\n' then consChar c (scanLongBasic .plain cs)
    else none

/-- A string of one line, of which the opening apostrophe has been read. -/
def scanLiteral : List Char → Scanned
  | [] => none
  | c :: cs =>
    if c = '\x27' then some ([], cs)
    else if isPlain c then consChar c (scanLiteral cs)
    else none

/-- A string that admits line breaks, of which the opening apostrophes have been read. -/
def scanLongLiteral : List Char → Scanned
  | [] => none
  | '\x27' :: '\x27' :: '\x27' :: '\x27' :: '\x27' :: cs => some (['\x27', '\x27'], cs)
  | '\x27' :: '\x27' :: '\x27' :: '\x27' :: cs => some (['\x27'], cs)
  | '\x27' :: '\x27' :: '\x27' :: cs => some ([], cs)
  | '\r' :: '\n' :: cs => consChar '\r' (consChar '\n' (scanLongLiteral cs))
  | c :: cs =>
    if isPlain c ∨ c = '\n' then consChar c (scanLongLiteral cs)
    else none

/-- What follows a line break at the start of a text. -/
def dropLineBreak : List Char → List Char
  | '\n' :: cs => cs
  | '\r' :: '\n' :: cs => cs
  | cs => cs

/-- Reads a string of one line at the start of a text. -/
def readShort? : List Char → Scanned
  | '\x22' :: cs => scanBasic .plain cs
  | '\x27' :: cs => scanLiteral cs
  | _ => none

/-- Reads a string of any kind at the start of a text. -/
def read? : List Char → Scanned
  | '\x22' :: '\x22' :: '\x22' :: cs => scanLongBasic .plain (dropLineBreak cs)
  | '\x27' :: '\x27' :: '\x27' :: cs => scanLongLiteral (dropLineBreak cs)
  | cs => readShort? cs

end PathGuard.Toml.Quoted
