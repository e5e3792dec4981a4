import PathGuard.Binary64.Basic
import PathGuard.Toml.Datetime

/-!
# TOML values

The values that a TOML document gives to its keys. Integers are not bounded here, and a number that
cannot be read is a value of its own: what a reader of a document demands of the numbers that it
looks at it checks itself.
-/

namespace PathGuard.Toml

/-- A value of a document. A table holds each of its keys once. -/
inductive Value where
  | string (text : String)
  | integer (n : Int)
  | float (x : Binary64)
  | boolean (b : Bool)
  | datetime (d : Datetime)
  | array (items : List Value)
  | table (entries : List (String × Value))
  /-- A text that has the marks of a number and writes none, or one too large for the format. -/
  | illegible
  deriving Repr

abbrev Table := List (String × Value)

mutual

/-- Whether all numbers of a value can be read and its integers satisfy a demand. -/
def Value.isLegible (demand : Int → Bool) : Value → Bool
  | .integer n => demand n
  | .illegible => false
  | .array items => allLegible demand items
  | .table entries => entriesLegible demand entries
  | _ => true

def allLegible (demand : Int → Bool) : List Value → Bool
  | [] => true
  | v :: vs => v.isLegible demand && allLegible demand vs

def entriesLegible (demand : Int → Bool) : List (String × Value) → Bool
  | [] => true
  | (_, v) :: entries => v.isLegible demand && entriesLegible demand entries

end

end PathGuard.Toml
