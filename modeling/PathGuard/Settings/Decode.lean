import PathGuard.Binary64.Shortest
import PathGuard.Record
import PathGuard.Settings.Basic
import PathGuard.Settings.Tree

/-!
# Settings from trees

How the values of a tree become settings. A truth value may be written as a number or a word, and a
text as a truth value or a number. A section is a table, of which unknown keys do not matter, or a
list of its values in order, from which later ones may be missing. What is missing takes its
default.
-/

namespace PathGuard.Settings

namespace Tree

/-- The words for true, which may be written in either case. -/
def trueWords : List String := ["1", "true", "on", "yes"]

/-- The words for false, which may be written in either case. -/
def falseWords : List String := ["0", "false", "off", "no"]

/-- The truth value that a value writes. A number is true unless it is zero. -/
def toBool? : Tree → Option Bool
  | boolean b => some b
  | integer n => some (n != 0)
  | float x => some (!x.isZero)
  | text s =>
    if trueWords.contains (Ascii.lowered s) then some true
    else if falseWords.contains (Ascii.lowered s) then some false
    else none
  | _ => none

def toText? : Tree → Option String
  | text s => some s
  | boolean b => some (if b then "true" else "false")
  | integer n => some (toString n)
  | float x => some x.text
  | _ => none

/-- The name of a variant: a text, or a table of which it is the only key. -/
def toVariant? : Tree → Option String
  | text s => some s
  | table [(name, _)] => some name
  | _ => none

/-- The fields that a value gives to a section with fields of the given names. -/
def section? (names : List String) : Tree → Option (Record Tree)
  | table entries => some entries
  | list items => some (.ofItems names items)
  | _ => none

end Tree

def features? (t : Tree) : Option Bool := do
  let fields ← t.section? [enforcedKey]
  fields.readOr enforcedKey Tree.toBool? default.enforced

def format? (t : Tree) : Option LogFormat :=
  t.toVariant?.bind LogFormat.ofName?

def logging? (t : Tree) : Option (String × LogFormat) := do
  let fields ← t.section? [levelKey, formatKey]
  return (
    ← fields.readOr levelKey Tree.toText? default.level,
    ← fields.readOr formatKey format? default.format)

/-- The settings of a tree. The level may be any text. -/
def ofTree? (t : Tree) : Option Settings := do
  let fields : Record Tree := t.entries
  let enforced ← fields.readOr featuresKey features? default.enforced
  let (level, format) ← fields.readOr loggingKey logging? (default.level, default.format)
  return { enforced, level, format }

end PathGuard.Settings
