import PathGuard.Guard
import PathGuard.Json.Basic
import PathGuard.Rules.Document
import PathGuard.Settings.Load

/-!
# Command line

A command line asks which of some paths of a repository an actor may read, by the rules of a file.
It is read word by word; the first word that is wrong, or that asks for the version or for help,
ends the reading. Then settings and rules are loaded and the paths are checked in order; the first
failure ends the run, and only a run without one prints the decisions.

## Main definitions

- `CommandLine.Word`: the kinds of words
- `CommandLine.parse`: the request of a command line, or why there is none
- `CommandLine.run`: what comes of a command line
- `CommandLine.Decision`: a path and its permission, and the two layouts of a list of them
-/

namespace PathGuard.CommandLine

def programName : String := "subrepo-authz"

def version : String := "0.1.0"

/-- The variable that names the settings if the command line does not. -/
def configVariable : String := "SUBREPO_AUTHZ_CONFIG"

/-- The kinds of words of a command line. -/
inductive Word where
  /-- Two dashes, after which every word is a value. -/
  | terminator
  /-- A name after two dashes, with the value after an equality sign. -/
  | long (name : String) (value? : Option String)
  | short (first : Char) (rest : List Char)
  | plain (text : String)

def Word.ofString (text : String) : Word :=
  match text.toList with
  | ['-', '-'] => terminator
  | '-' :: '-' :: cs =>
    match cs.span (· != '=') with
    | (name, []) => long (String.ofList name) none
    | (name, _ :: value) => long (String.ofList name) (some (String.ofList value))
  | '-' :: first :: rest => short first rest
  | _ => plain text

/-- Why the reading of a command line ends without a request. -/
inductive Stop where
  | usage
  | version
  | help
  deriving DecidableEq, Repr

/-! ## Options before the command -/

/-- The options before the command, as far as they have been read. -/
structure General where
  config? : Option String
  logLevel? : Option String
  deriving DecidableEq, Repr

/-- The options before the command that take a value. -/
inductive GeneralOption where
  | config
  | logLevel
  deriving DecidableEq, Repr

def GeneralOption.ofName? : String → Option GeneralOption
  | "config" => some config
  | "log-level" => some logLevel
  | _ => none

namespace General

def empty : General := ⟨none, none⟩

/-- Sets an option, which must not be set yet. -/
def set? (g : General) (option : GeneralOption) (value : String) : Option General :=
  match option with
  | .config => if g.config?.isSome then none else some { g with config? := some value }
  | .logLevel => if g.logLevel?.isSome then none else some { g with logLevel? := some value }

/-- The value that stands in the word of a letter that takes one, after an equality sign or not. -/
def attached? : List Char → Option String
  | [] => none
  | '=' :: cs => some (String.ofList cs)
  | cs => some (String.ofList cs)

/-- What comes of asking for help on what the words name. -/
def askHelp : List String → Stop
  | [] => .help
  | ["check"] => .help
  | ["help"] => .help
  | _ => .usage

/-- Reads the options up to the command. The option says which value is due. -/
def read (g : General) (due : Option GeneralOption) :
    List String → Except Stop (General × List String)
  | [] => .error .usage
  | text :: later =>
    match due, Word.ofString text with
    | some option, .plain value =>
      match g.set? option value with
      | some g => read g none later
      | none => .error .usage
    | some _, _ => .error .usage
    | none, .plain "check" => .ok (g, later)
    | none, .plain "help" => .error (askHelp later)
    | none, .long "version" none => .error .version
    | none, .long "help" none => .error .help
    | none, .long name value? =>
      match GeneralOption.ofName? name, value? with
      | some option, none => read g (some option) later
      | some option, some value =>
        match g.set? option value with
        | some g => read g none later
        | none => .error .usage
      | none, _ => .error .usage
    | none, .short 'V' _ => .error .version
    | none, .short 'h' _ => .error .help
    | none, .short 'c' rest =>
      match attached? rest with
      | none => read g (some .config) later
      | some value =>
        match g.set? .config value with
        | some g => read g none later
        | none => .error .usage
    | none, _ => .error .usage

end General

/-! ## The command -/

/-- The flags of the command. -/
inductive Flag where
  | internal
  | anonymous
  | enforce
  | noEnforce
  | json
  deriving DecidableEq, Repr

def Flag.ofName? : String → Option Flag
  | "internal" => some internal
  | "anonymous" => some anonymous
  | "enforce" => some enforce
  | "no-enforce" => some noEnforce
  | "json" => some json
  | _ => none

/-- The options of the command that take a value. -/
inductive CheckOption where
  | rules
  | repo
  | user
  deriving DecidableEq, Repr

def CheckOption.ofName? : String → Option CheckOption
  | "rules" => some rules
  | "repo" => some repo
  | "user" => some user
  | _ => none

def user? (text : String) : Option UserId :=
  (Ascii.integer64? text.toList).filter fun n => UserId.InRange n

/-- The words of the command, as far as they have been read. -/
structure Draft where
  rules? : Option String
  repo? : Option String
  user? : Option UserId
  flags : List Flag
  /-- The paths, last first. -/
  paths : List String

/-- What a command asks for. -/
structure Command where
  rules : String
  repo : RepoName
  actor : Actor
  /-- Whether rules are to be enforced, whatever the settings say. -/
  enforced? : Option Bool
  json : Bool
  paths : List String
  deriving DecidableEq, Repr

namespace Draft

def empty : Draft := ⟨none, none, none, [], []⟩

/-- Sets an option, which must not be set yet. -/
def set? (d : Draft) (option : CheckOption) (value : String) : Option Draft :=
  match option with
  | .rules => if d.rules?.isSome then none else some { d with rules? := some value }
  | .repo => if d.repo?.isSome then none else some { d with repo? := some value }
  | .user =>
    if d.user?.isSome then none
    else (CommandLine.user? value).map fun user => { d with user? := some user }

/-- Sets a flag, which must not be set yet. -/
def raise? (d : Draft) (flag : Flag) : Option Draft :=
  if d.flags.contains flag then none else some { d with flags := flag :: d.flags }

def addPaths (d : Draft) (paths : List String) : Draft :=
  { d with paths := paths.reverse ++ d.paths }

def actorCount (d : Draft) : Nat :=
  let users := if d.user?.isSome then 1 else 0
  let others := d.flags.filter fun flag => flag == .internal || flag == .anonymous
  users + others.length

def actor (d : Draft) : Actor :=
  if d.flags.contains .internal then .system
  else match d.user? with
    | some user => .ofUser user
    | none => .anonymous

def enforced? (d : Draft) : Option Bool :=
  if d.flags.contains .enforce then some true
  else if d.flags.contains .noEnforce then some false
  else none

/-- What the words ask for. The rules, the repository and a path have to be given; at most one actor
    may be named, and enforcement may not be asked for both ways. -/
def finish? (d : Draft) : Option Command := do
  let rules ← d.rules?
  let repo ← d.repo?
  if d.paths.isEmpty || 1 < d.actorCount then none
  if d.flags.contains .enforce && d.flags.contains .noEnforce then none
  return {
    rules, repo
    actor := d.actor
    enforced? := d.enforced?
    json := d.flags.contains .json
    paths := d.paths.reverse }

/-- The command, or a stop if there is none. -/
def orUsage {α : Type} : Option α → Except Stop α
  | some a => .ok a
  | none => .error .usage

/-- Reads the words of the command. The option says which value is due. -/
def read (d : Draft) (due : Option CheckOption) : List String → Except Stop Command
  | [] => if due.isSome then .error .usage else orUsage d.finish?
  | text :: later =>
    match due, Word.ofString text with
    | some option, .plain value =>
      match d.set? option value with
      | some d => read d none later
      | none => .error .usage
    | some _, _ => .error .usage
    | none, .plain path => read (d.addPaths [path]) none later
    | none, .terminator => orUsage (d.addPaths later).finish?
    | none, .short 'h' _ => .error .help
    | none, .short _ _ => .error .usage
    | none, .long "help" none => .error .help
    | none, .long name value? =>
      match CheckOption.ofName? name, Flag.ofName? name, value? with
      | some option, _, none => read d (some option) later
      | some option, _, some value =>
        match d.set? option value with
        | some d => read d none later
        | none => .error .usage
      | none, some flag, none =>
        match d.raise? flag with
        | some d => read d none later
        | none => .error .usage
      | none, _, _ => .error .usage

end Draft

def parse (words : List String) : Except Stop (General × Command) := do
  let (general, later) ← General.empty.read none words
  let command ← Draft.empty.read none later
  return (general, command)

/-! ## Running -/

/-- A path and what the actor may do with it. -/
structure Decision where
  path : String
  permission : Permission
  deriving DecidableEq, Repr

namespace Decision

def toJson (d : Decision) : Json :=
  .object [(.unicode "path", .ofString d.path), (.unicode "perms", .ofString d.permission.name)]

/-- A decision on a line: the permission, a tab, and the path as it is. -/
def line (d : Decision) : List Char :=
  d.permission.name.toList ++ '\t' :: d.path.toList ++ ['\n']

def lines (ds : List Decision) : List Char :=
  ds.flatMap line

/-- Decisions as an indented JSON array, and the end of the line. -/
def document (ds : List Decision) : List Char :=
  (Json.array (ds.map toJson)).pretty 0 ++ ['\n']

end Decision

/-- Why a run fails. -/
inductive Failure where
  | load (fault : LoadFault)
  | check (fault : CheckFault)
  deriving DecidableEq, Repr

def Failure.message : Failure → String
  | load fault => fault.message
  | check fault => fault.message

/-- What comes of a command line. -/
inductive Outcome where
  | success (output : String)
  | failure (cause : Failure)
  | usage
  deriving DecidableEq, Repr

def Outcome.status : Outcome → Nat
  | success _ => 0
  | failure _ => 1
  | usage => 2

def Outcome.output : Outcome → String
  | success output => output
  | _ => ""

/-- The decisions on paths, in order, unless a check fails. -/
def decide (actor : Actor) (repo : RepoName) : List String → Guard.Check (List Decision)
  | [] => return []
  | path :: later => do
    let permission ← Guard.checkActor actor repo path
    return ⟨path, permission⟩ :: (← decide actor repo later)

/-- The document of settings that is named: by an option, or else by a variable. -/
def General.document? (g : General) (environment : Environment) : Option String :=
  g.config? <|> environment.get? configVariable

def decisions (s : Surroundings) (general : General) (command : Command) :
    Except Failure (List Decision) := do
  let settings ← (Settings.load s (general.document? s.environment)).mapError .load
  let ledger ← (Ledger.load s command.rules).mapError .load
  let guard : Guard := ⟨command.enforced?.getD settings.enforced, some (.ledger ledger)⟩
  ((decide command.actor command.repo command.paths).run.run guard).1.mapError .check

/-- The text of the decisions in the layout that is asked for. -/
def layOut (json : Bool) (ds : List Decision) : String :=
  String.ofList (if json then Decision.document ds else Decision.lines ds)

def usageText : String :=
  "Usage: " ++ programName ++ " [--config <CONFIG>] [--log-level <LOG_LEVEL>] check"
    ++ " --rules <RULES> --repo <REPO> [--user <USER> | --internal | --anonymous]"
    ++ " [--enforce | --no-enforce] [--json] <PATHS>...\n"

def run (s : Surroundings) (words : List String) : Outcome :=
  match parse words with
  | .error .usage => .usage
  | .error .version => .success (programName ++ " " ++ version ++ "\n")
  | .error .help => .success usageText
  | .ok (general, command) =>
    match decisions s general command with
    | .ok ds => .success (layOut command.json ds)
    | .error cause => .failure cause

end PathGuard.CommandLine
