import PathGuard.Actor
import PathGuard.CheckFault
import PathGuard.Glob.Basic
import PathGuard.Path
import PathGuard.Permission
import PathGuard.Rules.Basic

/-!
# Matching paths against rules

A matcher holds the globs of a user's rules. A path is looked at under two spellings: its qualified
one, which begins with the name of the repository, and its relative one. Excludes are tried first
and on both spellings; includes only on the qualified one. A path that no rule settles is hidden.

## Main definitions

- `Glob.compileAll`: reads a list of patterns up to the first that is refused
- `Matcher.ofRules`: the matcher of a user's rules
- `Matcher.judge`: the verdict on a path
-/

namespace PathGuard

/-- Reads the patterns of one side, in order; the first that is refused is the fault. -/
def Glob.compileAll (side : RuleSide) (patterns : List String) : Except CheckFault (List Glob) :=
  patterns.mapM fun pattern =>
    (Glob.compile pattern).mapError fun flaw => .refusedPattern side pattern flaw.message

/-- What rules say of a path, with the text of the rule that settled it. -/
inductive Verdict where
  | excluded (rule : String)
  | included (rule : String)
  | unmatched
  deriving DecidableEq, Repr

namespace Verdict

def rule? : Verdict → Option String
  | excluded rule => some rule
  | included rule => some rule
  | unmatched => none

def permission : Verdict → Permission
  | included _ => .read
  | _ => .none

end Verdict

/-- The globs of a user's rules. -/
structure Matcher where
  includes : List Glob
  excludes : List Glob
  deriving Repr

namespace Matcher

/-- The matcher of a user's rules. The includes are read before the excludes. -/
def ofRules (rules : PathRules) : Except CheckFault Matcher := do
  let includes ← Glob.compileAll .inclusion rules.includes
  let excludes ← Glob.compileAll .exclusion rules.excludes
  return ⟨includes, excludes⟩

/-- The verdict on a path that is given under both spellings. -/
def judge (m : Matcher) (qualified relative : String) : Verdict :=
  match Glob.first? m.excludes [qualified, relative] with
  | some g => .excluded g.source
  | none =>
    match Glob.first? m.includes [qualified] with
    | some g => .included g.source
    | none => .unmatched

def judgeIn (m : Matcher) (repo : RepoName) (path : String) : Verdict :=
  m.judge (Path.join [repo, path]) (Path.join [path])

end Matcher

end PathGuard
