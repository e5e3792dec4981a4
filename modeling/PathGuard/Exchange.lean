import PathGuard.Actor
import PathGuard.Json.Shape
import PathGuard.Permission
import PathGuard.Rules.Basic
import PathGuard.Settings.Basic

/-!
# Exchange of values as JSON

The JSON forms of permissions, rules, names of repositories and settings, and how they are read.
Reading takes the shapes of `PathGuard.Json.Shape`: a record may leave out fields, which then take
their defaults.
-/

namespace PathGuard

def Permission.ofJson? (j : Json) : Option Permission :=
  j.variant?.bind ofName?

def Permission.toJson (p : Permission) : Json :=
  .ofString p.name

def RepoName.ofJson? (j : Json) : Option RepoName :=
  j.text?

def RepoName.toJson (repo : RepoName) : Json :=
  .ofString repo

def PathRules.ofJson? (j : Json) : Option PathRules := do
  let fields ← j.record? [includesKey, excludesKey]
  return {
    includes := ← fields.readOr includesKey Json.texts? []
    excludes := ← fields.readOr excludesKey Json.texts? [] }

def PathRules.toJson (rules : PathRules) : Json :=
  .object [
    (.unicode includesKey, .array (rules.includes.map .ofString)),
    (.unicode excludesKey, .array (rules.excludes.map .ofString))]

def LogFormat.ofJson? (j : Json) : Option LogFormat :=
  j.variant?.bind ofName?

namespace Settings

def featuresOfJson? (j : Json) : Option Bool := do
  let fields ← j.record? [enforcedKey]
  fields.readOr enforcedKey Json.bool? default.enforced

def loggingOfJson? (j : Json) : Option (String × LogFormat) := do
  let fields ← j.record? [levelKey, formatKey]
  return (
    ← fields.readOr levelKey Json.text? default.level,
    ← fields.readOr formatKey LogFormat.ofJson? default.format)

/-- Reads settings. The level may be any text. -/
def ofJson? (j : Json) : Option Settings := do
  let fields ← j.record? [featuresKey, loggingKey]
  let enforced ← fields.readOr featuresKey featuresOfJson? default.enforced
  let (level, format) ← fields.readOr loggingKey loggingOfJson? (default.level, default.format)
  return { enforced, level, format }

end Settings

end PathGuard
