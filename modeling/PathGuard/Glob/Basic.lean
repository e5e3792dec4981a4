import PathGuard.Glob.Marks
import PathGuard.Utf8

/-!
# Glob patterns

A glob is a pattern that has been read, together with its text. It matches a whole subject, byte by
byte: a question mark and a single star stay within one segment, and two stars may span segments.
-/

namespace PathGuard

/-- A pattern that has been read. -/
structure Glob where
  /-- The text of the pattern. -/
  source : String
  tokens : List Glob.Token
  deriving Repr

namespace Glob

def compile (source : String) : Except Flaw Glob := do
  return ⟨source, ← Token.ofString source⟩

/-- Whether a glob matches a subject from end to end. -/
def accepts (g : Glob) (subject : String) : Bool :=
  Token.accepts g.tokens (Utf8.encode subject)

def acceptsAny (g : Glob) (subjects : List String) : Bool :=
  subjects.any g.accepts

/-- The first glob, in order, that matches one of the subjects. -/
def first? (globs : List Glob) (subjects : List String) : Option Glob :=
  globs.find? (·.acceptsAny subjects)

end Glob

end PathGuard
