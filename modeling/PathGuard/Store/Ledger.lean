import PathGuard.Actor
import PathGuard.Rules.Basic

/-!
# Ledger of rules

A ledger holds, for each user and repository, the rules last written, and the repositories that have
path rules at all. Each pair of a user and a repository has at most one entry.

## Main definitions

- `Ledger.put`, `Ledger.removeUser`, `Ledger.setSupported`: writing
- `Ledger.rules?`, `Ledger.rulesOf`, `Ledger.supports`: looking up
-/

namespace PathGuard

/-- The rules of one user for one repository. -/
structure Ledger.Entry where
  user : UserId
  repo : RepoName
  rules : PathRules
  deriving DecidableEq, Repr

/-- The rules of all users, and the repositories that have path rules. -/
structure Ledger where
  entries : List Ledger.Entry
  supported : List RepoName
  deriving Repr

namespace Ledger

/-- Whether an entry is the one of a user for a repository. -/
def Entry.isFor (e : Entry) (user : UserId) (repo : RepoName) : Bool :=
  e.user == user && e.repo == repo

def empty : Ledger := ⟨[], []⟩

/-- Writes the rules of a user for a repository, in place of earlier ones. -/
def put (l : Ledger) (user : UserId) (repo : RepoName) (rules : PathRules) : Ledger :=
  { l with entries := ⟨user, repo, rules⟩ :: l.entries.filter (!·.isFor user repo) }

/-- Removes the rules of a user for all repositories. -/
def removeUser (l : Ledger) (user : UserId) : Ledger :=
  { l with entries := l.entries.filter (·.user != user) }

def setSupported (l : Ledger) (repo : RepoName) (value : Bool) : Ledger :=
  let others := l.supported.filter (· != repo)
  { l with supported := if value then repo :: others else others }

def supports (l : Ledger) (repo : RepoName) : Bool :=
  l.supported.contains repo

def rulesOf (l : Ledger) (user : UserId) : List (RepoName × PathRules) :=
  (l.entries.filter (·.user == user)).map fun e => (e.repo, e.rules)

def rules? (l : Ledger) (user : UserId) (repo : RepoName) : Option PathRules :=
  (l.rulesOf user).lookup repo

theorem rules?_put_self (l : Ledger) (user : UserId) (repo : RepoName) (rules : PathRules) :
    (l.put user repo rules).rules? user repo = some rules := by
  simp [put, rules?, rulesOf]

theorem rulesOf_removeUser_self (l : Ledger) (user : UserId) :
    (l.removeUser user).rulesOf user = [] := by
  simp [removeUser, rulesOf]

theorem supports_setSupported_self (l : Ledger) (repo : RepoName) (value : Bool) :
    (l.setSupported repo value).supports repo = value := by
  cases value <;> simp [setSupported, supports]

end Ledger

end PathGuard
