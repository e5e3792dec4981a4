import PathGuard.Ascii

/-!
# JSON values

JSON values and the two layouts in which they are written: on one line without blanks, and indented.

## Main definitions

- `Json`: a value; objects keep their members in order and may repeat a key
- `Json.quote`: a string between quotation marks
- `Json.compact`, `Json.pretty`: the two layouts
-/

namespace PathGuard

/-- What a string of a JSON text holds. An escaped surrogate without its partner is no Unicode
    text. -/
inductive Json.Text where
  | unicode (text : String)
  | broken
  deriving DecidableEq, Repr

/-- A JSON value. A number is kept as it is written. -/
inductive Json where
  | null
  | bool (value : Bool)
  | number (literal : String)
  | string (text : Json.Text)
  | array (items : List Json)
  | object (members : List (Json.Text × Json))
  deriving Repr

namespace Json

def ofString (text : String) : Json :=
  .string (.unicode text)

/-- How a character is written between quotation marks. -/
def escape (c : Char) : List Char :=
  match c with
  | '\x22' => ['\\', '\x22']
  | '\\' => ['\\', '\\']
  | '\x08' => ['\\', 'b']
  | '\x0c' => ['\\', 'f']
  | '\n' => ['\\', 'n']
  | '\r' => ['\\', 'r']
  | '\t' => ['\\', 't']
  | c =>
    if c.toNat < 0x20 then
      ['\\', 'u', '0', '0', Ascii.hexDigit (c.toNat / 16), Ascii.hexDigit (c.toNat % 16)]
    else [c]

/-- A string between quotation marks. Broken text is written as one escaped surrogate. -/
def quote : Text → List Char
  | .unicode text => '\x22' :: text.toList.flatMap escape ++ ['\x22']
  | .broken => "\"\\ud800\"".toList

mutual

/-- The layout of a value on one line without blanks. -/
def compact : Json → List Char
  | null => "null".toList
  | bool true => "true".toList
  | bool false => "false".toList
  | number literal => literal.toList
  | string text => quote text
  | array [] => ['[', ']']
  | array (item :: items) => '[' :: compact item ++ compactItems items
  | object [] => ['\x7b', '\x7d']
  | object ((key, value) :: members) =>
    '\x7b' :: quote key ++ ':' :: compact value ++ compactMembers members

/-- The later items of an array, and its end. -/
def compactItems : List Json → List Char
  | [] => [']']
  | item :: items => ',' :: compact item ++ compactItems items

/-- The later members of an object, and its end. -/
def compactMembers : List (Text × Json) → List Char
  | [] => ['\x7d']
  | (key, value) :: members =>
    ',' :: quote key ++ ':' :: compact value ++ compactMembers members

end

/-- A new line at a depth of nesting, two blanks to a level. -/
def newline (depth : Nat) : List Char :=
  '\n' :: List.replicate (2 * depth) ' '

mutual

/-- The indented layout of a value at a depth of nesting. -/
def pretty (depth : Nat) : Json → List Char
  | null => "null".toList
  | bool true => "true".toList
  | bool false => "false".toList
  | number literal => literal.toList
  | string text => quote text
  | array [] => ['[', ']']
  | array (item :: items) =>
    '[' :: newline (depth + 1) ++ pretty (depth + 1) item ++ prettyItems depth items
  | object [] => ['\x7b', '\x7d']
  | object ((key, value) :: members) =>
    '\x7b' :: newline (depth + 1) ++ quote key ++ ':' :: ' ' :: pretty (depth + 1) value
      ++ prettyMembers depth members

/-- The later items of an array, and its end. -/
def prettyItems (depth : Nat) : List Json → List Char
  | [] => newline depth ++ [']']
  | item :: items =>
    ',' :: newline (depth + 1) ++ pretty (depth + 1) item ++ prettyItems depth items

/-- The later members of an object, and its end. -/
def prettyMembers (depth : Nat) : List (Text × Json) → List Char
  | [] => newline depth ++ ['\x7d']
  | (key, value) :: members =>
    ',' :: newline (depth + 1) ++ quote key ++ ':' :: ' ' :: pretty (depth + 1) value
      ++ prettyMembers depth members

end

end Json

end PathGuard
