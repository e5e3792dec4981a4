import PathGuard.CheckFault
import PathGuard.Store.Ledger

/-!
# Stores

A store answers two enquiries: whether a repository has path rules, and the rules of a user. A
ledger always answers. A probe stands in for a remote store: it counts the enquiries, takes every
repository not listed for one with path rules, and fails where a fault has been set.

## Main definitions

- `Store`: a ledger or a probe
- `Store.supports`, `Store.rulesOf`: the two enquiries, with the store after each
-/

namespace PathGuard

/-- A stand-in for a remote store. -/
structure Probe where
  rules : Ledger
  /-- The repositories without path rules. -/
  unsupported : List RepoName
  /-- The fault of the enquiry for support. -/
  supportFault : Option StoreFault
  /-- The fault of the enquiry for rules. -/
  rulesFault : Option StoreFault
  /-- How often support was enquired for. -/
  supportCalls : Nat
  /-- How often rules were enquired for. -/
  rulesCalls : Nat
  deriving Repr

namespace Probe

def fresh (unsupported : List RepoName) (supportFault rulesFault : Option StoreFault) : Probe :=
  ⟨.empty, unsupported, supportFault, rulesFault, 0, 0⟩

def supports (p : Probe) (repo : RepoName) : Except StoreFault Bool × Probe :=
  let answer := match p.supportFault with
    | some fault => .error fault
    | none => .ok (!p.unsupported.contains repo)
  (answer, { p with supportCalls := p.supportCalls + 1 })

def rulesOf (p : Probe) (user : UserId) : Except StoreFault (List (RepoName × PathRules)) × Probe :=
  let answer := match p.rulesFault with
    | some fault => .error fault
    | none => .ok (p.rules.rulesOf user)
  (answer, { p with rulesCalls := p.rulesCalls + 1 })

end Probe

/-- What answers enquiries. -/
inductive Store where
  | ledger (l : Ledger)
  | probe (p : Probe)
  deriving Repr

namespace Store

def supports (repo : RepoName) : Store → Except StoreFault Bool × Store
  | ledger l => (.ok (l.supports repo), ledger l)
  | probe p => (p.supports repo).map id probe

def rulesOf (user : UserId) :
    Store → Except StoreFault (List (RepoName × PathRules)) × Store
  | ledger l => (.ok (l.rulesOf user), ledger l)
  | probe p => (p.rulesOf user).map id probe

end Store

end PathGuard
