import PathGuard.Toml.Basic

/-!
# Trees of settings

Settings before they are given types: a tree that is put together from layers, of which a later one
wins over an earlier one key by key.

## Main definitions

- `Settings.Tree`: a value
- `Settings.Tree.merge`: the effect of a value on one that was there
- `Settings.KeyPath`: the place of a value in a tree
- `Settings.Tree.put`: the effect of a value at a place
- `Settings.KeyOrder`: an order in which the keys of a layer come
-/

namespace PathGuard.Settings

/-- A value of settings. -/
inductive Tree where
  | nothing
  | boolean (b : Bool)
  | integer (n : Int)
  | float (x : Binary64)
  | text (s : String)
  | list (items : List Tree)
  | table (entries : List (String × Tree))
  deriving Repr

namespace Tree

mutual

/-- The value that a TOML value gives. Dates and times are texts here, and what cannot be read gives
    nothing. -/
def ofToml : Toml.Value → Tree
  | .string s => text s
  | .integer n => integer n
  | .float x => float x
  | .boolean b => boolean b
  | .datetime d => text d.text
  | .illegible => nothing
  | .array items => list (ofTomlItems items)
  | .table entries => table (ofTomlEntries entries)

def ofTomlItems : List Toml.Value → List Tree
  | [] => []
  | v :: vs => ofToml v :: ofTomlItems vs

def ofTomlEntries : List (String × Toml.Value) → List (String × Tree)
  | [] => []
  | (key, v) :: entries => (key, ofToml v) :: ofTomlEntries entries

end

/-- The entries of a table; other values have none. -/
def entries : Tree → List (String × Tree)
  | table entries => entries
  | _ => []

/-- The items of a list; other values have none. -/
def items : Tree → List Tree
  | list items => items
  | _ => []

/-- Changes the value of a key, in its place if there is one. -/
def updateKey (key : String) (change : Tree → Tree) : List (String × Tree) → List (String × Tree)
  | [] => [(key, change nothing)]
  | (k, v) :: later =>
    if k = key then (k, change v) :: later else (k, v) :: updateKey key change later

mutual

/-- The effect of a value on one that was there: a table is merged key by key, and everything else
    is replaced. -/
def merge (old : Tree) : Tree → Tree
  | table entries => table (mergeEntries old.entries entries)
  | value => value

/-- The effect of the entries of a table on those that were there. -/
def mergeEntries (old : List (String × Tree)) : List (String × Tree) → List (String × Tree)
  | [] => old
  | (key, value) :: later =>
    mergeEntries (updateKey key (fun old => merge old value) old) later

end

end Tree

/-- One step into a tree. -/
inductive KeyStep where
  | key (name : String)
  | index (n : Int)
  deriving DecidableEq, Repr

abbrev KeyPath := List KeyStep

namespace KeyPath

def isNameChar (c : Char) : Bool :=
  c.isAlphanum || c == '_' || c == '-'

def readName (cs : List Char) : Option (String × List Char) :=
  match cs.span isNameChar with
  | ([], _) => none
  | (name, rest) => some (String.ofList name, rest)

def isBlank (c : Char) : Bool :=
  c == ' ' || c == '\t'

/-- Reads an index of 64 bits and the bracket that closes it. -/
def readIndex (cs : List Char) : Option (Int × List Char) :=
  let cs := cs.dropWhile isBlank
  let (negative, cs) := match cs with
    | '-' :: cs => (true, cs)
    | cs => (false, cs)
  match cs.span Char.isDigit with
  | ([], _) => none
  | (digits, rest) =>
    let n := Ascii.signed negative (Ascii.decimal digits)
    match rest.dropWhile isBlank with
    | ']' :: rest => if Ascii.isInteger64 n then some (n, rest) else none
    | _ => none

def readSteps : Nat → List Char → Option KeyPath
  | _, [] => some []
  | 0, _ => none
  | fuel + 1, '.' :: cs => do
    let (name, rest) ← readName cs
    return .key name :: (← readSteps fuel rest)
  | fuel + 1, '[' :: cs => do
    let (n, rest) ← readIndex cs
    return .index n :: (← readSteps fuel rest)
  | _, _ => none

/-- Reads a path: names that are joined by points, and indices in brackets. -/
def ofString? (text : String) : Option KeyPath := do
  let (name, rest) ← readName text.toList
  return .key name :: (← readSteps rest.length rest)

/-- The place that the text of a key writes. A text that is no path is a key as it stands. -/
def ofKey (text : String) : KeyPath :=
  (ofString? text).getD [.key text]

end KeyPath

namespace Tree

/-- A list filled up so that an index has an item, and the position of that item. A negative index
    counts from the end, and the list is filled up at its start. -/
def reachItem (n : Int) (items : List Tree) : List Tree × Nat :=
  if 0 ≤ n then (items ++ List.replicate (n.toNat + 1 - items.length) nothing, n.toNat)
  else (List.replicate (n.natAbs - items.length) nothing ++ items, items.length - n.natAbs)

def updateItem (n : Int) (change : Tree → Tree) (items : List Tree) : List Tree :=
  let (filled, position) := reachItem n items
  filled.modify position change

/-- Changes the value at a place. What stands in the way is replaced by a table or a list. -/
def update (change : Tree → Tree) : KeyPath → Tree → Tree
  | [], v => change v
  | .key name :: path, v => table (updateKey name (update change path) v.entries)
  | .index n :: path, v => list (updateItem n (update change path) v.items)

def put (t : Tree) (path : KeyPath) (value : Tree) : Tree :=
  update (fun old => merge old value) path t

/-- The effect of a layer whose keys come in the order given: each of them is a place. -/
def addLayer (t : Tree) (layer : List (String × Tree)) : Tree :=
  layer.foldl (fun t (key, value) => t.put (KeyPath.ofKey key) value) t

end Tree

/-- An order in which the keys of a layer come. Layers are kept in hash tables, which have no order of
    their own: any order may come up, and another one the next time. Where two keys of a layer write
    to the same place, the one that comes later wins. -/
structure KeyOrder where
  arrange : List (String × Tree) → List (String × Tree)
  arrange_perm : ∀ layer, (arrange layer).Perm layer

/-- Keys that come in the order in which they are written. -/
def KeyOrder.asWritten : KeyOrder :=
  ⟨id, .refl⟩

/-- The orders in which the keys of a document and those of the environment come. -/
structure KeyOrders where
  document : KeyOrder
  environment : KeyOrder

def KeyOrders.asWritten : KeyOrders :=
  ⟨.asWritten, .asWritten⟩

end PathGuard.Settings
