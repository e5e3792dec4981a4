import PathGuard.Rules.Matcher
import PathGuard.Store.Basic

/-!
# Guarded paths

A guard decides what may be done with a path of a repository. While it does not enforce, everything
may be read. Otherwise it asks its store, in a fixed order, and judges the path by the rules found.
What the store is asked does not depend on the path: `Guard.standing` settles how a user stands to a
repository, and `Standing.permission` decides on paths without asking again.

## Main definitions

- `Guard.Check`: a check, which may fail and leaves a guard whose store has been asked
- `Guard.check`: a user and a path
- `Guard.checkActor`: an actor and a path
- `Guard.readable`: the paths of a list that an actor may read
-/

namespace PathGuard

/-- How a user stands to a repository. -/
inductive Standing where
  | unrestricted
  /-- The user has no rules for the repository, so every path is hidden. -/
  | unlisted
  | ruled (matcher : Matcher)

def Standing.permission (repo : RepoName) (path : String) : Standing → Permission
  | unrestricted => .read
  | unlisted => .none
  | ruled matcher => (matcher.judgeIn repo path).permission

/-- What decides on paths. -/
structure Guard where
  /-- Whether rules are enforced. -/
  enforced : Bool
  /-- Where rules are looked up. -/
  store : Option Store

namespace Guard

/-- A computation that asks the guard's store, and keeps what it did to the store if it fails. -/
abbrev Check := ExceptT CheckFault (StateM Guard)

/-- Asks the guard's store, and keeps it as the enquiry leaves it. -/
def ask {α : Type} (enquiry : Enquiry) (answer : Store → Except StoreFault α × Store) : Check α :=
  fun guard =>
    match guard.store with
    | none => (.error .noStore, guard)
    | some store =>
      let (result, store) := answer store
      (result.mapError (.store enquiry), { guard with store := some store })

def standing (user : UserId) (repo : RepoName) : Check Standing := do
  unless (← get).enforced do return .unrestricted
  if user = 0 then throw .unauthenticated
  unless ← ask .support (Store.supports repo) do return .unrestricted
  match (← ask .rules (Store.rulesOf user)).lookup repo with
  | none => return .unlisted
  | some rules =>
    match Matcher.ofRules rules with
    | .ok matcher => return .ruled matcher
    | .error fault => throw fault

def check (user : UserId) (repo : RepoName) (path : String) : Check Permission := do
  return (← standing user repo).permission repo path

/-- Decides what an actor may do with a path. The system itself may read everything. -/
def checkActor (actor : Actor) (repo : RepoName) (path : String) : Check Permission := do
  unless (← get).enforced do return .read
  unless actor.isAuthenticated do throw .unauthenticated
  if actor.internal then return .read
  check actor.user repo path

/-- The paths that an actor may read, in the order given. Each is checked for itself, and the first
    check that fails fails the whole. -/
def readable (actor : Actor) (repo : RepoName) : List String → Check (List String)
  | [] => return []
  | path :: paths => do
    let permission ← checkActor actor repo path
    let later ← readable actor repo paths
    return if permission.canRead then path :: later else later

end Guard

end PathGuard
