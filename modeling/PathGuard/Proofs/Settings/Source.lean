import Mathlib.Data.List.Basic
import PathGuard.Settings.Load

/-!
# The document that settings are loaded from

Settings are loaded from the document that is named, or from the first of the default places that is
there. What is loaded then depends on the file at that place, on the environment and on the orders in
which their keys come, and on nothing else.

## Main definitions

- `Settings.ofPlace`, `Settings.ofBytes`: the settings from a place, and from the bytes of a file

## Main results

- `Settings.source_some_eq_ok_iff`, `Settings.source_none_eq_ok_iff`: when a document is taken from a
  place
- `Settings.load_of_source`, `Settings.ofPlace_of_file?`: what is loaded then
-/

namespace PathGuard.Settings

/-- The settings from the document at a place, or without one, and from the environment. -/
def ofPlace (s : Surroundings) : Option String → Except LoadFault Settings
  | none => ofLayers [[], s.orders.environment.arrange (variableLayer s.environment)]
  | some place => do
    ofLayers [s.orders.document.arrange (← layerOfFile s place),
      s.orders.environment.arrange (variableLayer s.environment)]

/-- The settings from the bytes of a file and from the environment. -/
def ofBytes (bytes : List UInt8) (environment : Environment) (orders : KeyOrders) :
    Except LoadFault Settings := do
  ofLayers [orders.document.arrange (← layerOfText (Utf8.decodeLossy (Utf8.dropMark bytes))),
    orders.environment.arrange (variableLayer environment)]

variable {s : Surroundings} {place : String}

theorem arrange_nil (order : KeyOrder) : order.arrange [] = [] :=
  (order.arrange_perm []).eq_nil

theorem ofLayers_arrange_nil_cons (order : KeyOrder) (layers : List (List (String × Tree))) :
    ofLayers (order.arrange [] :: layers) = ofLayers ([] :: layers) := by
  rw [arrange_nil]

/-- A document that is named is taken from nowhere else. -/
theorem source_some_eq_ok_iff {path : String} :
    source s (some path) = .ok (some place) ↔ path = place ∧ s.hasPath place = true := by
  rw [source]
  split
  · next h =>
    rw [Except.ok.injEq, Option.some.injEq]
    exact ⟨fun hpath => ⟨hpath, hpath ▸ h⟩, And.left⟩
  · next h =>
    refine ⟨fun hsource => (by cases hsource), ?_⟩
    rintro ⟨rfl, hplace⟩
    exact absurd hplace h

/-- A document that is not named is taken from a default place that is there, if none before it is. -/
theorem source_none_eq_ok_iff :
    source s none = .ok (some place) ↔
      ∃ before after, defaultPlaces s.environment = before ++ place :: after ∧
        s.hasPath place = true ∧ ∀ other ∈ before, s.hasPath other = false := by
  rw [source, Except.ok.injEq, List.find?_eq_some_iff_append]
  constructor
  · rintro ⟨hplace, before, after, hplaces, hbefore⟩
    exact ⟨before, after, hplaces, hplace, fun other hmem => by simpa using hbefore other hmem⟩
  · rintro ⟨before, after, hplaces, hplace, hbefore⟩
    exact ⟨hplace, before, after, hplaces, fun other hmem => by simpa using hbefore other hmem⟩

theorem load_of_source {path found : Option String} (h : source s path = .ok found) :
    load s path = ofPlace s found := by
  rw [load, h]
  cases found with
  | none => exact ofLayers_arrange_nil_cons ..
  | some place => rfl

/-- Of the file at a place only its bytes matter. -/
theorem ofPlace_of_file? {bytes : List UInt8} (h : s.file? place = some bytes) :
    ofPlace s (some place) = ofBytes bytes s.environment s.orders := by
  rw [ofPlace, layerOfFile, documentBytes?, h]
  rfl

theorem load_of_not_hasPath (h : s.hasPath place = false) :
    load s (some place) = .error (.notFound .settings place) := by
  rw [load, source, h]
  rfl

end PathGuard.Settings
