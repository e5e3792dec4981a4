import PathGuard.Path

/-!
# File trees

The files and directories below a root, and the working directory that paths which do not begin at
the root start from. The working directory and those above it are always there.

## Main definitions

- `FileTree`: the working directory, and what each name path holds
- `FileTree.resolve?`: where a path leads, if it leads to something
- `FileTree.write`, `FileTree.makeDirectory`, `FileTree.remove`: changes
-/

namespace PathGuard

/-- What a name path holds. -/
inductive FileTree.Content where
  | file (bytes : List UInt8)
  | directory
  deriving DecidableEq, Repr

/-- The names from the root to a file or directory. -/
abbrev FileTree.Names := List Path.Segment

/-- The files and directories of a system. -/
structure FileTree where
  /-- The working directory. -/
  workplace : FileTree.Names
  entries : List (FileTree.Names × FileTree.Content)

namespace FileTree

/-- A working directory with nothing in it, and nothing next to it. -/
def empty : FileTree := ⟨["work".toList], []⟩

/-- What a name path holds. -/
def content? (t : FileTree) (names : Names) : Option Content :=
  if names.isPrefixOf t.workplace then some .directory else t.entries.lookup names

/-- Whether a path starts from the root or from the working directory. -/
def start (t : FileTree) (path : List Char) : Names :=
  if Path.isRooted path then [] else t.workplace

/-- Takes one segment from where a walk stands, which must be a directory. Its names stand last
    first. The root is its own parent. -/
def step? (t : FileTree) (reversed : Names) (seg : Path.Segment) : Option Names :=
  match t.content? reversed.reverse with
  | some .directory =>
    if seg = [] ∨ seg = Path.here then some reversed
    else if seg = Path.parent then some reversed.tail
    else some (seg :: reversed)
  | _ => none

/-- What a path leads to. The empty path leads nowhere. -/
def resolve? (t : FileTree) (path : String) : Option Content := do
  let cs := path.toList
  if cs.isEmpty then none
  let reversed ← (Path.segments cs).foldlM t.step? (t.start cs).reverse
  t.content? reversed.reverse

/-- The names that a path spells, wherever it leads. -/
def namesOf (t : FileTree) (path : String) : Names :=
  Path.reduce true (t.start path.toList ++ Path.segments path.toList)

def set (t : FileTree) (names : Names) (content : Content) : FileTree :=
  { t with entries := (names, content) :: t.entries.filter (·.1 != names) }

def ensure (t : FileTree) (names : Names) : FileTree :=
  if t.content? names == some .directory then t else t.set names .directory

def ensureParents (t : FileTree) (names : Names) : FileTree :=
  (List.range names.length).foldl (fun t n => t.ensure (names.take n)) t

/-- Writes a file, and makes the directories on the way to it. -/
def write (t : FileTree) (path : String) (bytes : List UInt8) : FileTree :=
  let names := t.namesOf path
  (t.ensureParents names).set names (.file bytes)

/-- Makes a directory, and those on the way to it. -/
def makeDirectory (t : FileTree) (path : String) : FileTree :=
  let names := t.namesOf path
  (t.ensureParents names).ensure names

/-- Removes a file, or a directory with all that is in it. -/
def remove (t : FileTree) (path : String) : FileTree :=
  let names := t.namesOf path
  { t with entries := t.entries.filter fun entry => !names.isPrefixOf entry.1 }

end FileTree

end PathGuard
