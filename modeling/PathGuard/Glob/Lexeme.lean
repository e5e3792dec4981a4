import PathGuard.Glob.CharClass

/-!
# Lexemes of glob patterns

A pattern is cut from left to right into lexemes: wildcards, literal characters, character classes
and the marks of alternate groups. `Lexeme.scan` is a single pass with a mode; where the text itself
is at fault the last lexeme is the flaw, so that what stands before it is still seen first.
-/

namespace PathGuard.Glob

/-- The smallest parts of a pattern. -/
inductive Lexeme where
  | any
  | star
  | doubleStar
  /-- A character that stands for itself, perhaps because a backslash precedes it. -/
  | literal (c : Char) (escaped : Bool)
  | cls (cls : CharClass)
  | openGroup
  | closeGroup
  /-- A comma, which separates the branches of a group. -/
  | comma
  | flaw (flaw : Flaw)
  deriving DecidableEq, Repr

namespace Lexeme

def lastChar : Lexeme → Option Char
  | any => some '?'
  | star => some '*'
  | doubleStar => some '*'
  | literal c _ => some c
  | cls _ => some ']'
  | openGroup => some '\x7b'
  | closeGroup => some '\x7d'
  | comma => some ','
  | flaw _ => none

/-- Where a scan stands. -/
inductive Mode where
  | plain
  | starred
  | escaped
  | bracket
  | inClass (draft : CharClass.Draft)

/-- The lexeme or the mode that a character outside classes begins. -/
def begin (c : Char) : Lexeme ⊕ Mode :=
  match c with
  | '?' => .inl any
  | '*' => .inr .starred
  | '[' => .inr .bracket
  | '\\' => .inr .escaped
  | '\x7b' => .inl openGroup
  | '\x7d' => .inl closeGroup
  | ',' => .inl comma
  | c => .inl (literal c false)

/-- The lexemes that a text contributes from a mode on. -/
def scan : Mode → List Char → List Lexeme
  | .plain, [] => []
  | .plain, c :: cs =>
    match begin c with
    | .inl l => l :: scan .plain cs
    | .inr mode => scan mode cs
  | .starred, [] => [star]
  | .starred, c :: cs =>
    if c = '*' then doubleStar :: scan .plain cs
    else match begin c with
      | .inl l => star :: l :: scan .plain cs
      | .inr mode => star :: scan mode cs
  | .escaped, [] => [flaw .danglingEscape]
  | .escaped, c :: cs => literal c true :: scan .plain cs
  | .bracket, [] => [flaw .unclosedClass]
  | .bracket, c :: cs =>
    if c = '!' ∨ c = '^' then scan (.inClass (.start true)) cs
    else match (CharClass.Draft.start false).read c with
      | .more d => scan (.inClass d) cs
      | .done k => cls k :: scan .plain cs
      | .refused f => [flaw f]
  | .inClass _, [] => [flaw .unclosedClass]
  | .inClass d, c :: cs =>
    match d.read c with
    | .more d => scan (.inClass d) cs
    | .done k => cls k :: scan .plain cs
    | .refused f => [flaw f]

def ofString (pattern : String) : List Lexeme :=
  scan .plain pattern.toList

end Lexeme

end PathGuard.Glob
