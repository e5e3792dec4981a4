/-!
# Flaws of glob patterns

The reasons for which a glob pattern is refused, and the text that reports each of them.
-/

namespace PathGuard.Glob

/-- Why a pattern is refused. -/
inductive Flaw where
  /-- A character class is not closed before the pattern ends. -/
  | unclosedClass
  /-- The first character of a range comes after its last one. -/
  | invalidRange (first last : Char)
  | unopenedGroup
  /-- A group is still open when the pattern ends. -/
  | unclosedGroup
  | danglingEscape
  deriving DecidableEq, Repr

namespace Flaw

def message : Flaw → String
  | unclosedClass => "unclosed character class; missing ']'"
  | invalidRange first last =>
    "invalid range; '" ++ first.toString ++ "' > '" ++ last.toString ++ "'"
  | unopenedGroup =>
    "unopened alternate group; missing '\x7b' (maybe escape '\x7d' with '[\x7d]'?)"
  | unclosedGroup =>
    "unclosed alternate group; missing '\x7d' (maybe escape '\x7b' with '[\x7b]'?)"
  | danglingEscape => "dangling '\\'"

end Flaw

end PathGuard.Glob
