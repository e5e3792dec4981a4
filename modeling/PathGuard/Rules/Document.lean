import PathGuard.LoadFault
import PathGuard.Record
import PathGuard.Store.Ledger
import PathGuard.Surroundings
import PathGuard.Toml.Document
import PathGuard.Utf8

/-!
# Rules documents

A rules document lists the repositories that have path rules, and the rules of users for
repositories. No two of its entries may be for the same user and repository.

## Main definitions

- `RulesDocument.ofTable?`: the document that a TOML table holds
- `Ledger.ofDocument`: the ledger of a document, unless an entry repeats an earlier one
- `Ledger.ofText`, `Ledger.load`: the ledger of a text and of a file
-/

namespace PathGuard

/-- The repositories that have path rules, and the entries, in the order of the document. -/
structure RulesDocument where
  supported : List RepoName
  entries : List Ledger.Entry
  deriving DecidableEq, Repr

namespace RulesDocument

/-- The integers that can be read at all: those of 128 bits, with or without a sign. -/
def isReadable (n : Int) : Bool :=
  -(Nat.pow 2 127 : Int) ≤ n && n < Nat.pow 2 128

def isLegible (value : Toml.Value) : Bool :=
  value.isLegible isReadable

def text? : Toml.Value → Option String
  | .string text => some text
  | _ => none

def texts? : Toml.Value → Option (List String)
  | .array items => items.mapM text?
  | _ => none

def user? : Toml.Value → Option UserId
  | .integer n => if UserId.InRange n then some n else none
  | _ => none

/-- The names of the fields of an entry, in order. -/
def entryKeys : List String := ["user_id", "repo", PathRules.includesKey, PathRules.excludesKey]

/-- The fields of an entry: a table of them, whatever else it holds that can be read, or an array of
    them in order, whatever follows, which nobody looks at. -/
def fields? : Toml.Value → Option (Record Toml.Value)
  | .table entries => if entries.all fun (_, value) => isLegible value then some entries else none
  | .array items => some (.ofItems entryKeys items)
  | _ => none

/-- The entry that a value holds. The user and the repository have to be given. -/
def entry? (value : Toml.Value) : Option Ledger.Entry := do
  let fields ← fields? value
  return {
    user := ← fields.read "user_id" user?
    repo := ← fields.read "repo" text?
    rules := {
      includes := ← fields.readOr PathRules.includesKey texts? []
      excludes := ← fields.readOr PathRules.excludesKey texts? [] } }

def entries? : Toml.Value → Option (List Ledger.Entry)
  | .array items => items.mapM entry?
  | _ => none

/-- The name of the field that lists the repositories that have path rules. -/
def supportedKey : String := "supported_repos"

def rulesKey : String := "rules"

/-- The document that a table holds. Numbers under other keys have to be ones that can be read. -/
def ofTable? (table : Toml.Table) : Option RulesDocument := do
  if table.any fun (key, value) => key != rulesKey && !isLegible value then none
  let fields : Record Toml.Value := table
  return {
    supported := ← fields.readOr supportedKey texts? []
    entries := ← fields.readOr rulesKey entries? [] }

end RulesDocument

namespace Ledger

/-- Adds an entry, unless its user has rules for its repository already. -/
def addEntry (l : Ledger) (e : Entry) : Except LoadFault Ledger :=
  if (l.rules? e.user e.repo).isSome then
    .error (.invalid
      ("duplicate rules for user " ++ toString e.user ++ " in repo '" ++ e.repo ++ "'"))
  else .ok (l.put e.user e.repo e.rules)

def ofDocument (d : RulesDocument) : Except LoadFault Ledger :=
  let start := d.supported.foldl (fun l repo => l.setSupported repo true) empty
  d.entries.foldlM addEntry start

/-- The ledger of the document that a text writes. In rules a key path leaves implied tables
    alone. -/
def ofText (text : String) : Except LoadFault Ledger :=
  match Toml.parse? .leaving text with
  | none => .error (.malformed "the rules are not TOML")
  | some table =>
    match RulesDocument.ofTable? table with
    | none => .error (.malformed "the TOML document does not hold rules")
    | some document => ofDocument document

def load (s : Surroundings) (path : String) : Except LoadFault Ledger :=
  match s.look path with
  | none => .error (.notFound .rules path)
  | some .directory => .error (.unreadable path)
  | some (.file bytes) =>
    match Utf8.decodeStrict? bytes with
    | none => .error (.unreadable path)
    | some text => ofText text

end Ledger

end PathGuard
