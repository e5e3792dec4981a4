import PathGuard.Toml.Assembly
import PathGuard.Toml.Quoted
import PathGuard.Toml.Scalar

/-!
# Reading TOML documents

The table that a text writes. Comments and blanks are dropped, keys are bare or quoted and may be
joined by points, and arrays and inline tables may run over several lines and end in a comma. They
may be nested to a fixed depth, and key paths may not be longer than that.

## Main definitions

- `skipFiller`: what follows blanks, line breaks and comments
- `readKey`: a key path
- `readValue`: a value
- `readStatements`: the statements of a document
- `parse?`: the table of a text
-/

namespace PathGuard.Toml

def skipBlanks (cs : List Char) : List Char :=
  cs.dropWhile isBlank

/-- What follows blanks, line breaks and comments, unless a comment holds a control character. The
    flag says whether the text begins inside a comment. -/
def skipFiller : Bool → List Char → Option (List Char)
  | _, [] => some []
  | _, '\r' :: '\n' :: cs => skipFiller false cs
  | true, c :: cs =>
    if c = '\n' then skipFiller false cs
    else if Quoted.isPlain c then skipFiller true cs
    else none
  | false, c :: cs =>
    if c = '\n' ∨ isBlank c then skipFiller false cs
    else if c = '#' then skipFiller true cs
    else some (c :: cs)

/-- Whether nothing stands between here and the end of the line but a comment. -/
def atLineEnd : List Char → Bool
  | [] => true
  | '\n' :: _ => true
  | '\r' :: '\n' :: _ => true
  | c :: _ => c == '#'

def isBareKeyChar (c : Char) : Bool :=
  c.isAlphanum || c == '_' || c == '-'

def readSimpleKey (cs : List Char) : Option (String × List Char) :=
  match cs.span isBareKeyChar with
  | ([], cs) => (Quoted.readShort? cs).map fun (key, rest) => (String.ofList key, rest)
  | (key, rest) => some (String.ofList key, rest)

def keyLimit : Nat := 80

/-- Reads a key path of at most so many keys: the way and the last key. Blanks after it are
    skipped. -/
def readKeys : Nat → List Char → Option ((List String × String) × List Char)
  | 0, _ => none
  | limit + 1, cs => do
    let (key, rest) ← readSimpleKey cs
    match skipBlanks rest with
    | '.' :: rest =>
      let ((way, last), rest) ← readKeys limit (skipBlanks rest)
      return ((key :: way, last), rest)
    | rest => return (([], key), rest)

def readKey (cs : List Char) : Option ((List String × String) × List Char) :=
  readKeys keyLimit cs

/-- Reads a key path and the equality sign after it, on one line. -/
def readKeyEquals (cs : List Char) : Option ((List String × String) × List Char) := do
  match ← readKey cs with
  | (path, '=' :: rest) => return (path, skipBlanks rest)
  | _ => none

/-- Reads a key path and the equality sign after it, with line breaks and comments around it. -/
def readInlineKeyEquals (cs : List Char) : Option ((List String × String) × List Char) := do
  let (path, rest) ← readKey cs
  match ← skipFiller false rest with
  | '=' :: rest => return (path, ← skipFiller false rest)
  | _ => none

/-- The table that the assignments of an inline table give. No header names a table in it. -/
def inlineTable? (assignments : List ((List String × String) × Value)) : Option Value := do
  let (_, entries) ← assignments.foldlM
    (fun (origin, entries) ((way, key), value) => assignAt .leaving way key value origin entries)
    (Origin.header, ([] : Entries))
  return .table (entryValues entries)

def readString (cs : List Char) : Option (Value × List Char) :=
  (Quoted.read? cs).map fun (text, rest) => (.string (String.ofList text), rest)

mutual

/-- Reads a value. The first number is fuel, the second the depth of nesting that is left. -/
def readValue : Nat → Nat → List Char → Option (Value × List Char)
  | 0, _, _ => none
  | _ + 1, _, [] => none
  | fuel + 1, depth, c :: cs =>
    match c with
    | '\x22' => readString (c :: cs)
    | '\x27' => readString (c :: cs)
    | '[' =>
      match depth with
      | 0 => none
      | depth + 1 => do
        let (items, rest) ← readItems fuel depth (← skipFiller false cs)
        return (.array items, rest)
    | '\x7b' =>
      match depth with
      | 0 => none
      | depth + 1 => do
        let (assignments, rest) ← readAssignments fuel depth (← skipFiller false cs)
        return (← inlineTable? assignments, rest)
    | c =>
      let (word, rest) := Scalar.scan (c :: cs)
      (Scalar.ofChars? word).map fun v => (v, rest)

/-- Reads the items of an array up to its closing bracket. -/
def readItems : Nat → Nat → List Char → Option (List Value × List Char)
  | 0, _, _ => none
  | _ + 1, _, ']' :: rest => some ([], rest)
  | fuel + 1, depth, cs => do
    let (item, rest) ← readValue fuel depth cs
    match ← skipFiller false rest with
    | ']' :: rest => return ([item], rest)
    | ',' :: rest =>
      let (items, rest) ← readItems fuel depth (← skipFiller false rest)
      return (item :: items, rest)
    | _ => none

/-- Reads the assignments of an inline table up to its closing brace. -/
def readAssignments : Nat → Nat → List Char →
    Option (List ((List String × String) × Value) × List Char)
  | 0, _, _ => none
  | _ + 1, _, '\x7d' :: rest => some ([], rest)
  | fuel + 1, depth, cs => do
    let (path, rest) ← readInlineKeyEquals cs
    let (value, rest) ← readValue fuel depth rest
    match ← skipFiller false rest with
    | '\x7d' :: rest => return ([(path, value)], rest)
    | ',' :: rest =>
      let (assignments, rest) ← readAssignments fuel depth (← skipFiller false rest)
      return ((path, value) :: assignments, rest)
    | _ => none

end

def depthLimit : Nat := 80

def readStatement (fuel : Nat) : List Char → Option (Statement × List Char)
  | '[' :: '[' :: cs => do
    let ((way, key), rest) ← readKey (skipBlanks cs)
    match rest with
    | ']' :: ']' :: rest => return (.element way key, rest)
    | _ => none
  | '[' :: cs => do
    let ((way, key), rest) ← readKey (skipBlanks cs)
    match rest with
    | ']' :: rest => return (.table way key, rest)
    | _ => none
  | cs => do
    let ((way, key), rest) ← readKeyEquals cs
    let (value, rest) ← readValue fuel depthLimit rest
    return (.assignment way key value, rest)

/-- Reads the statements of a document, each of which ends its line. -/
def readStatements : Nat → List Char → Option (List Statement)
  | 0, _ => none
  | fuel + 1, cs => do
    match ← skipFiller false cs with
    | [] => return []
    | cs =>
      let (statement, rest) ← readStatement fuel cs
      let rest := skipBlanks rest
      if atLineEnd rest then return statement :: (← readStatements fuel rest) else none

/-- What follows a byte order mark at the start of a text. -/
def dropMark : List Char → List Char
  | '\ufeff' :: cs => cs
  | cs => cs

/-- The table that a text writes; the passage is that of the kind of document. Each step of reading
    spends one of three times as many units of fuel as there are characters, and no three steps in a
    row read none. -/
def parse? (passage : Passage) (text : String) : Option Table := do
  let cs := dropMark text.toList
  assemble? passage (← readStatements (3 * cs.length + 3) cs)

end PathGuard.Toml
