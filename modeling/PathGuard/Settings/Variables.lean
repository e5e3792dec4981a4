import PathGuard.Binary64.Decimal
import PathGuard.Environment
import PathGuard.Settings.Tree

/-!
# Settings from environment variables

A variable whose name begins with `SUBREPO_AUTHZ_`, in whatever case, sets the value of a key: the
rest of the name in lower case, in which two underscores stand for a point. The value is a truth
value, an integer of 64 bits or a floating-point number if it reads as one, and a text otherwise.

## Main definitions

- `Settings.variableKey?`: the key that a variable sets
- `Settings.variableValue`: the value that a text writes
- `Settings.variableLayer`: the keys that all variables set
-/

namespace PathGuard.Settings

/-- What the names of variables begin with that set keys, in lower case. -/
def variableLeader : List Char := "subrepo_authz_".toList

/-- Puts a point in the place of each pair of underscores, from left to right. -/
def pointed : List Char → List Char
  | '_' :: '_' :: cs => '.' :: pointed cs
  | c :: cs => c :: pointed cs
  | [] => []

/-- The small letter of a capital. Beyond ASCII only the Kelvin sign has a small letter that can
    stand in the name of a setting, so other characters stay as they are. -/
def lowerNameChar (c : Char) : Char :=
  if c = '\u212a' then 'k' else c.toLower

def variableKey? (name : String) : Option String :=
  let lowered := name.toList.map lowerNameChar
  if variableLeader.isPrefixOf lowered then
    some (String.ofList (pointed (lowered.drop variableLeader.length)))
  else none

def float? (cs : List Char) : Option Binary64 :=
  let (negative, unsigned) := Ascii.splitSign cs
  let word := String.ofList (unsigned.map Char.toLower)
  if word = "inf" ∨ word = "infinity" then some (.infinite negative)
  else if word = "nan" then some .nan
  else Binary64.decimal? negative unsigned

def variableValue (text : String) : Tree :=
  let word := Ascii.lowered text
  if word = "true" then .boolean true
  else if word = "false" then .boolean false
  else match Ascii.integer64? text.toList with
    | some n => .integer n
    | none => match float? text.toList with
      | some x => .float x
      | none => .text text

/-- The keys that variables set with their values, in the order of the variables. -/
def variableEntries (e : Environment) : List (String × Tree) :=
  e.bindings.filterMap fun (name, text) =>
    (variableKey? name).map fun key => (key, variableValue text)

/-- Sets the value of a key, whatever it was before. -/
def setKey (layer : List (String × Tree)) (entry : String × Tree) : List (String × Tree) :=
  Tree.updateKey entry.1 (fun _ => entry.2) layer

/-- Entries with each key once. Of entries with the same key the last one counts. -/
def distinctKeys (entries : List (String × Tree)) : List (String × Tree) :=
  entries.foldl setKey []

def variableLayer (e : Environment) : List (String × Tree) :=
  distinctKeys (variableEntries e)

end PathGuard.Settings
