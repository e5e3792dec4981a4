/-!
# Path rules

The rules of one user for one repository: the patterns of the paths that are shown, and those of the
paths that are hidden in spite of it.
-/

namespace PathGuard

/-- The patterns of one user for one repository, in stored order. -/
structure PathRules where
  includes : List String
  excludes : List String
  deriving DecidableEq, Repr

namespace PathRules

def empty : PathRules := ⟨[], []⟩

/-- The name of the field that lists the patterns of the paths that are shown. -/
def includesKey : String := "path_includes"

/-- The name of the field that lists the patterns of the paths that are hidden. -/
def excludesKey : String := "path_excludes"

end PathRules

end PathGuard
