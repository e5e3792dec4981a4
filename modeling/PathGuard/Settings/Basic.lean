import PathGuard.Ascii
import PathGuard.LoadFault

/-!
# Settings

What can be set: whether path rules are enforced, and how much is logged and in which layout.

## Main definitions

- `Settings`: the values
- `Settings.default`: what is in force where nothing is set
- `Settings.validate`: the demands on the level
-/

namespace PathGuard

/-- The layouts of a log. -/
inductive LogFormat where
  | pretty
  | json
  deriving DecidableEq, Repr

namespace LogFormat

def name : LogFormat → String
  | pretty => "pretty"
  | json => "json"

def ofName? (text : String) : Option LogFormat :=
  [pretty, json].find? (·.name == text)

end LogFormat

/-- What can be set. -/
structure Settings where
  /-- Whether path rules are enforced. -/
  enforced : Bool
  /-- How much is logged, in the spelling given. -/
  level : String
  format : LogFormat
  deriving DecidableEq, Repr

namespace Settings

def default : Settings := ⟨false, "info", .pretty⟩

def featuresKey : String := "experimental_features"

/-- The name of the feature that enforces path rules. -/
def enforcedKey : String := "enable_sub_repo_permissions"

def loggingKey : String := "logging"

def levelKey : String := "level"

def formatKey : String := "format"

def levels : List String := ["trace", "debug", "info", "warn", "error"]

/-- Whether a level is known, in whatever case its ASCII letters are. -/
def isLevel (text : String) : Bool :=
  levels.contains (Ascii.lowered text)

def validate (s : Settings) : Except LoadFault Settings :=
  if s.level.isEmpty then .error (.missing "logging.level")
  else if isLevel s.level then .ok s
  else .error (.invalid
    ("logging.level must be one of " ++ ", ".intercalate levels ++ ", got: " ++ s.level))

end Settings

end PathGuard
