/-!
# Permissions

What one may do with a path of a repository. Permissions are ordered by how much they allow.
-/

namespace PathGuard

/-- What one may do with a path. -/
inductive Permission where
  | none
  | read
  deriving DecidableEq, Repr

namespace Permission

def name : Permission → String
  | none => "none"
  | read => "read"

def ofName? (text : String) : Option Permission :=
  [none, read].find? (·.name == text)

def rank : Permission → Nat
  | none => 0
  | read => 1

instance : Ord Permission where
  compare p q := compare p.rank q.rank

def canRead (p : Permission) : Bool :=
  p == read

end Permission

end PathGuard
