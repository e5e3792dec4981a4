import PathGuard.Json.Basic
import PathGuard.Record

/-!
# Shapes of JSON values

How records, variants and lists of strings stand in a JSON value. A record is an object, whose
unknown members do not matter and whose known ones come at most once, or an array of its fields in
order, from which later fields may be missing. A variant without content is its name, or an object
whose one member has that name and holds null.

## Main definitions

- `Json.record?`: the fields of a record
- `Json.variant?`: the name of a variant
-/

namespace PathGuard.Json

def text? : Json → Option String
  | string (.unicode text) => some text
  | _ => none

def bool? : Json → Option Bool
  | bool b => some b
  | _ => none

def texts? : Json → Option (List String)
  | array items => items.mapM text?
  | _ => none

/-- The members of an object by key, if every key is Unicode text. -/
def keyed? : List (Text × Json) → Option (Record Json)
  | [] => some []
  | (.unicode key, value) :: members => (keyed? members).map ((key, value) :: ·)
  | (.broken, _) :: _ => none

def atMostOnce (members : Record Json) (key : String) : Bool :=
  (members.filter (·.1 == key)).length ≤ 1

/-- The fields that a value gives to a record with fields of the given names. -/
def record? (names : List String) : Json → Option (Record Json)
  | object members => do
    let members ← keyed? members
    if names.all (atMostOnce members) then some members else none
  | array items => if items.length ≤ names.length then some (.ofItems names items) else none
  | _ => none

def variant? : Json → Option String
  | string (.unicode name) => some name
  | object [(.unicode name, null)] => some name
  | _ => none

end PathGuard.Json
