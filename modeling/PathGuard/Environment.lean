/-!
# Environments

The variables of an environment with their values, in the order in which they were first set.
-/

namespace PathGuard

/-- The variables with their values, each name once. -/
structure Environment where
  bindings : List (String × String)
  deriving Repr

namespace Environment

def empty : Environment := ⟨[]⟩

def get? (e : Environment) (name : String) : Option String :=
  e.bindings.lookup name

/-- Sets a variable, in its place if it is set already. -/
def set (e : Environment) (name value : String) : Environment :=
  if (e.get? name).isSome then
    ⟨e.bindings.map fun (n, v) => if n = name then (n, value) else (n, v)⟩
  else ⟨e.bindings ++ [(name, value)]⟩

def unset (e : Environment) (name : String) : Environment :=
  ⟨e.bindings.filter (·.1 != name)⟩

end Environment

end PathGuard
