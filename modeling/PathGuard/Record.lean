/-!
# Records

The fields of a record by name, as a document gives them: from a table, or from a list of the values
in the order of the names.
-/

namespace PathGuard

abbrev Record (α : Type) := List (String × α)

namespace Record

variable {α β : Type}

/-- The fields of a record whose values come in the order of their names. Fields at the end may be
    missing; values beyond the last field do not matter. -/
def ofItems (names : List String) (items : List α) : Record α :=
  names.zip items

/-- The value of a field: what is read if it is given, and a default otherwise. -/
def readOr (fields : Record α) (name : String) (read : α → Option β) (default : β) : Option β :=
  match fields.lookup name with
  | some value => read value
  | none => some default

def read (fields : Record α) (name : String) (read : α → Option β) : Option β :=
  (fields.lookup name).bind read

end Record

end PathGuard
