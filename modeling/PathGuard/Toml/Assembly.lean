import PathGuard.Toml.Basic

/-!
# Assembling TOML tables

A document is a list of statements: headers, which choose the table that the following assignments
go to, and assignments to keys. A key may be a path. A table under assembly remembers how it came to
be, because a table may be named by a header once and may be widened by key paths only while no
header has named it. Documents of different kinds differ in what a key path does with a table that
only stands on the way to one that a header names.

## Main definitions

- `Node`: a value under assembly
- `Passage`: the point in which kinds of documents differ
- `modify`: a change of the table at the end of a path
- `Statement.apply`: the effect of a statement
- `assemble?`: the table that a list of statements gives, unless one of them is refused
-/

namespace PathGuard.Toml

/-- How a table came to be. -/
inductive Origin where
  | header
  /-- It stands on the way to a table that a header names. -/
  | implied
  /-- It stands on the way to a key that is assigned. -/
  | keyPath
  deriving DecidableEq, Repr

/-- A value under assembly. -/
inductive Node where
  | closed (value : Value)
  | table (origin : Origin) (entries : List (String × Node))
  /-- The tables of an array that headers build, last first. -/
  | tables (elements : List (List (String × Node)))

abbrev Entries := List (String × Node)

/-- Sets the node of a key, in its place if there is one. -/
def setEntry (entries : Entries) (key : String) (node : Node) : Entries :=
  match entries with
  | [] => [(key, node)]
  | (k, n) :: later => if k = key then (k, node) :: later else (k, n) :: setEntry later key node

/-- What a key path does with the tables it passes through that are only implied by headers. -/
inductive Passage where
  /-- It leaves them to headers, and no key of its own may stand in them. -/
  | leaving
  /-- It takes them over, as if it had made them. -/
  | claiming
  deriving DecidableEq, Repr

/-- Who follows a path. -/
inductive Walker where
  /-- A header, which may pass through any table. -/
  | header
  /-- A key path, which may only pass through tables that no header names. -/
  | keyPath (passage : Passage)
  deriving DecidableEq, Repr

namespace Walker

def origin : Walker → Origin
  | header => .implied
  | keyPath _ => .keyPath

/-- The origin that a table has after a walker has passed through it, if it may. -/
def pass? : Walker → Origin → Option Origin
  | header, o => some o
  | keyPath _, .header => none
  | keyPath .leaving, o => some o
  | keyPath .claiming, _ => some .keyPath

end Walker

abbrev Change := Origin → Entries → Option (Origin × Entries)

/-- Changes the table at the end of a path. Missing tables on the way are made, and an array of
    tables is passed through its last one. -/
def modify (w : Walker) (change : Change) : List String → Change
  | [], origin, entries => change origin entries
  | key :: path, origin, entries =>
    match entries.lookup key with
    | none => do
      let (o, es) ← modify w change path w.origin []
      return (origin, setEntry entries key (.table o es))
    | some (.table o es) => do
      let (o, es) ← modify w change path (← w.pass? o) es
      return (origin, setEntry entries key (.table o es))
    | some (.tables (last :: before)) => do
      let (_, last) ← modify w change path .header last
      return (origin, setEntry entries key (.tables (last :: before)))
    | some _ => none

def openTable (key : String) : Change := fun origin entries =>
  match entries.lookup key with
  | none => some (origin, setEntry entries key (.table .header []))
  | some (.table .implied es) => some (origin, setEntry entries key (.table .header es))
  | some _ => none

def appendTable (key : String) : Change := fun origin entries =>
  match entries.lookup key with
  | none => some (origin, setEntry entries key (.tables [[]]))
  | some (.tables elements) => some (origin, setEntry entries key (.tables ([] :: elements)))
  | some _ => none

/-- Assigns a value to a key that has none. A key path must end in a table that a key path made. -/
def assign (dotted : Bool) (key : String) (value : Value) : Change := fun origin entries =>
  if dotted && origin != .keyPath then none
  else if (entries.lookup key).isSome then none
  else some (origin, setEntry entries key (.closed value))

/-- A statement of a document. Paths are split into the way to a table and the last key. -/
inductive Statement where
  | table (way : List String) (key : String)
  | element (way : List String) (key : String)
  | assignment (way : List String) (key : String) (value : Value)

def assignAt (passage : Passage) (way : List String) (key : String) (value : Value) : Change :=
  modify (.keyPath passage) (assign (!way.isEmpty) key value) way

/-- A document under assembly: its entries, and the path of the table that assignments go to. -/
structure Draft where
  entries : Entries
  current : List String

namespace Draft

def empty : Draft := ⟨[], []⟩

def change (d : Draft) (c : Change) (current : List String) : Option Draft :=
  (c .header d.entries).map fun (_, entries) => ⟨entries, current⟩

def apply (passage : Passage) (d : Draft) : Statement → Option Draft
  | .table way key => d.change (modify .header (openTable key) way) (way ++ [key])
  | .element way key => d.change (modify .header (appendTable key) way) (way ++ [key])
  | .assignment way key value =>
    d.change (modify .header (assignAt passage way key value) d.current) d.current

end Draft

mutual

def Node.value : Node → Value
  | .closed v => v
  | .table _ entries => .table (entryValues entries)
  | .tables elements => .array (elementValues elements [])

def entryValues : List (String × Node) → List (String × Value)
  | [] => []
  | (key, node) :: entries => (key, node.value) :: entryValues entries

/-- The values of the tables of an array, in front of those of later tables. -/
def elementValues : List (List (String × Node)) → List Value → List Value
  | [], later => later
  | entries :: before, later => elementValues before (.table (entryValues entries) :: later)

end

/-- The table that statements give, unless one of them is refused. -/
def assemble? (passage : Passage) (statements : List Statement) : Option Table :=
  (statements.foldlM (Draft.apply passage) .empty).map fun d => entryValues d.entries

end PathGuard.Toml
