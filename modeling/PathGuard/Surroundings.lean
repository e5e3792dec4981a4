import PathGuard.Environment
import PathGuard.FileTree
import PathGuard.Settings.Tree

/-!
# Surroundings

Where documents are loaded: what each path leads to, the variables of the environment, and the orders
in which the keys of settings come.
-/

namespace PathGuard

/-- What each path leads to, the variables, and the orders of keys. -/
structure Surroundings where
  look : String → Option FileTree.Content
  environment : Environment
  orders : Settings.KeyOrders := .asWritten

namespace Surroundings

def ofTree (files : FileTree) (environment : Environment)
    (orders : Settings.KeyOrders := .asWritten) : Surroundings :=
  ⟨files.resolve?, environment, orders⟩

def hasPath (s : Surroundings) (path : String) : Bool :=
  (s.look path).isSome

def file? (s : Surroundings) (path : String) : Option (List UInt8) :=
  match s.look path with
  | some (.file bytes) => some bytes
  | _ => none

end Surroundings

end PathGuard
