import PathGuard.Guard
import PathGuard.Rules.Document
import PathGuard.Settings.Board
import PathGuard.Settings.Load

/-!
# Sessions

A session is a guard, perhaps a board of settings whose followers keep the guard's switch, and the
files and variables around it. Steps change it and give answers; a step that does not fit the session
changes nothing. A step that reads settings comes with the order in which it goes through their keys.

## Main definitions

- `Session`: the state
- `Session.Step`, `Session.Answer`: what can be done, and what comes of it
- `Session.step`: the effect of a step
- `Session.run`: the answers of a list of steps, with the switch after each
-/

namespace PathGuard

/-- The state of a session. -/
structure Session where
  guard : Guard
  board : Option Board
  files : FileTree
  environment : Environment

namespace Session

/-- What can be done in a session. -/
inductive Step where
  | enforced
  | setEnforced (value : Bool)
  | check (user : UserId) (repo : RepoName) (path : String)
  | checkActor (actor : Actor) (repo : RepoName) (path : String)
  | readable (actor : Actor) (repo : RepoName) (paths : List String)
  /-- Writes the rules of a user for a repository. -/
  | putRules (user : UserId) (repo : RepoName) (rules : PathRules)
  /-- Removes the rules of a user from a ledger. -/
  | removeUser (user : UserId)
  /-- Writes into a ledger whether a repository has path rules. -/
  | setSupported (repo : RepoName) (value : Bool)
  | rulesOf (user : UserId)
  /-- Asks a ledger whether a repository has path rules. -/
  | supports (repo : RepoName)
  /-- Lists a repository of a probe as one without path rules. -/
  | markUnsupported (repo : RepoName)
  /-- Sets or clears the fault of a probe's enquiries for support. -/
  | failSupport (fault : Option StoreFault)
  /-- Sets or clears the fault of a probe's enquiries for rules. -/
  | failRules (fault : Option StoreFault)
  | calls
  | current
  /-- Posts the settings of a text. -/
  | publish (text : String) (order : Settings.KeyOrder := .asWritten)
  /-- Loads the settings of the board's document again and posts them. -/
  | reload (orders : Settings.KeyOrders := .asWritten)
  | subscribe
  | receive (index : Nat)
  /-- Adds a follower, which sets the switch at once. -/
  | follow
  | settle
  | close
  | writeFile (path : String) (bytes : List UInt8)
  | makeDirectory (path : String)
  | removePath (path : String)
  | setVariable (name : String) (value : Option String)

/-- What comes of a step. -/
inductive Answer where
  | done
  | truth (value : Bool)
  | permission (value : Permission)
  | paths (value : List String)
  | rules (value : List (RepoName × PathRules))
  | calls (support rules : Nat)
  | settings (value : Settings)
  | index (value : Nat)
  /-- Whether there was news, if the board is still open, and the settings shown. -/
  | received (changed : Option Bool) (value : Settings)
  | checkFault (fault : CheckFault)
  | loadFault (fault : LoadFault)
  | notApplicable
  deriving Repr

def surroundings (s : Session) (orders : Settings.KeyOrders) : Surroundings :=
  .ofTree s.files s.environment orders

def setSwitch (s : Session) (value : Bool) : Session :=
  { s with guard := { s.guard with enforced := value } }

/-- Makes a check and keeps what it does to the store. -/
def runCheck {α : Type} (s : Session) (check : Guard.Check α) (answer : α → Answer) :
    Answer × Session :=
  let (result, guard) := check.run.run s.guard
  (match result with
    | .ok a => answer a
    | .error fault => .checkFault fault,
   { s with guard })

def setStore (s : Session) (store : Store) : Session :=
  { s with guard := { s.guard with store := some store } }

def changeLedger (s : Session) (change : Ledger → Ledger) : Answer × Session :=
  match s.guard.store with
  | some (.ledger l) => (.done, s.setStore (.ledger (change l)))
  | _ => (.notApplicable, s)

def askLedger (s : Session) (answer : Ledger → Answer) : Answer × Session :=
  match s.guard.store with
  | some (.ledger l) => (answer l, s)
  | _ => (.notApplicable, s)

def changeProbe (s : Session) (change : Probe → Probe) : Answer × Session :=
  match s.guard.store with
  | some (.probe p) => (.done, s.setStore (.probe (change p)))
  | _ => (.notApplicable, s)

def askProbe (s : Session) (answer : Probe → Answer) : Answer × Session :=
  match s.guard.store with
  | some (.probe p) => (answer p, s)
  | _ => (.notApplicable, s)

def putRules (s : Session) (user : UserId) (repo : RepoName) (rules : PathRules) :
    Answer × Session :=
  match s.guard.store with
  | some (.ledger l) => (.done, s.setStore (.ledger (l.put user repo rules)))
  | some (.probe p) =>
    (.done, s.setStore (.probe { p with rules := p.rules.put user repo rules }))
  | none => (.notApplicable, s)

/-- Takes part in the board, which has to be open. -/
def onBoard (s : Session) (act : Board → Answer × Session) : Answer × Session :=
  match s.board with
  | some b => if b.isOpen then act b else (.notApplicable, s)
  | none => (.notApplicable, s)

/-- Posts settings, unless they could not be loaded. -/
def postResult (s : Session) (b : Board) : Except LoadFault Settings → Answer × Session
  | .ok settings => (.done, { s with board := some (b.post settings) })
  | .error fault => (.loadFault fault, s)

/-- Lets a receiver look at the board, which may be closed. -/
def receive (s : Session) (index : Nat) : Answer × Session :=
  match s.board with
  | none => (.notApplicable, s)
  | some b =>
    match b.receive? index with
    | none => (.notApplicable, s)
    | some (changed, b) =>
      (.received (if b.isOpen then some changed else none) b.current, { s with board := some b })

/-- Sets the switch to the value that followers give it, if they do. -/
def applyFollowers (s : Session) : Option Bool × Board → Session
  | (some value, b) => { s.setSwitch value with board := some b }
  | (none, b) => { s with board := some b }

/-- Changes the board's followers by letting them run or finish, if there is a board. -/
def letFollowers (s : Session) (act : Board → Option Bool × Board) : Answer × Session :=
  match s.board with
  | some b => (.done, s.applyFollowers (act b))
  | none => (.done, s)

def step (s : Session) : Step → Answer × Session
  | .enforced => (.truth s.guard.enforced, s)
  | .setEnforced value => (.done, s.setSwitch value)
  | .check user repo path => s.runCheck (Guard.check user repo path) .permission
  | .checkActor actor repo path => s.runCheck (Guard.checkActor actor repo path) .permission
  | .readable actor repo paths => s.runCheck (Guard.readable actor repo paths) .paths
  | .putRules user repo rules => s.putRules user repo rules
  | .removeUser user => s.changeLedger (·.removeUser user)
  | .setSupported repo value => s.changeLedger (·.setSupported repo value)
  | .rulesOf user => s.askLedger fun l => .rules (l.rulesOf user)
  | .supports repo => s.askLedger fun l => .truth (l.supports repo)
  | .markUnsupported repo =>
    s.changeProbe fun p => { p with unsupported := repo :: p.unsupported }
  | .failSupport fault => s.changeProbe fun p => { p with supportFault := fault }
  | .failRules fault => s.changeProbe fun p => { p with rulesFault := fault }
  | .calls => s.askProbe fun p => .calls p.supportCalls p.rulesCalls
  | .current => s.onBoard fun b => (.settings b.current, s)
  | .publish text order => s.onBoard fun b => s.postResult b (Settings.ofText text order)
  | .reload orders => s.onBoard fun b =>
    s.postResult b (Settings.load (s.surroundings orders) b.source)
  | .subscribe => s.onBoard fun b =>
    let (index, b) := b.subscribe
    (.index index, { s with board := some b })
  | .receive index => s.receive index
  | .follow => s.onBoard fun b =>
    (.done, { s.setSwitch b.current.enforced with board := some b.follow })
  | .settle => s.letFollowers Board.settle
  | .close => s.letFollowers Board.close
  | .writeFile path bytes => (.done, { s with files := s.files.write path bytes })
  | .makeDirectory path => (.done, { s with files := s.files.makeDirectory path })
  | .removePath path => (.done, { s with files := s.files.remove path })
  | .setVariable name (some value) =>
    (.done, { s with environment := s.environment.set name value })
  | .setVariable name none => (.done, { s with environment := s.environment.unset name })

/-- The answers of steps, each with the switch after it. -/
def run (s : Session) : List Step → List (Answer × Bool)
  | [] => []
  | first :: later =>
    let (answer, s) := s.step first
    (answer, s.guard.enforced) :: s.run later

/-- Where the rules of a session's guard come from. -/
inductive StoreSource where
  | none
  | empty
  | text (document : String)
  | file (path : String)
  | probe (p : Probe)

/-- Where the settings of a session's board come from. -/
inductive BoardSource where
  | none
  | text (document : String) (order : Settings.KeyOrder := .asWritten)
  | load (path : Option String) (orders : Settings.KeyOrders := .asWritten)

def StoreSource.store (s : Surroundings) : StoreSource → Except LoadFault (Option Store)
  | none => .ok .none
  | empty => .ok (some (.ledger .empty))
  | text document => (Ledger.ofText document).map fun l => some (.ledger l)
  | file path => (Ledger.load s path).map fun l => some (.ledger l)
  | probe p => .ok (some (.probe p))

/-- The board from a source. One whose settings come from a text has no document to load again. -/
def BoardSource.board (s : Surroundings) : BoardSource → Except LoadFault (Option Board)
  | none => .ok .none
  | text document order => (Settings.ofText document order).map fun c => some (Board.fresh c .none)
  | load path orders => (Settings.load { s with orders } path).map fun c => some (Board.fresh c path)

/-- A session that has not taken a step. Its store is opened before its board. -/
def start (files : FileTree) (environment : Environment) (store : StoreSource) (enforced : Bool)
    (board : BoardSource) : Except LoadFault Session := do
  let surroundings := Surroundings.ofTree files environment
  let store ← store.store surroundings
  let board ← board.board surroundings
  return { guard := ⟨enforced, store⟩, board, files, environment }

end Session

end PathGuard
