import PathGuard.Exchange
import PathGuard.Proofs.Json.Layout
import PathGuard.Proofs.Json.Records

/-!
# Spellings of rules and settings

Rules, settings and names of repositories have many spellings as JSON, and every one of them is read as the
value that it spells. A text with a fault is refused, whatever else is in it. What is written is read back.

## Main definitions

- `PathRules.fields`, `Settings.fields`: the records that rules and settings are
- `Settings.Breaks`: the faults of settings, at every level
- `Json.ReadsSpellings`: a reader takes the spellings of a value, and nothing else

## Main results

- `PathRules.ofJson?_eq_some_iff`, `Settings.ofJson?_eq_some_iff`: what is read from a value
- `Json.readsSpellings`: what is read from a text
-/

namespace PathGuard

/-- Reads a value from the JSON value of a text. -/
def Json.read? {α : Type} (ofJson? : Json → Option α) (text : String) : Option α :=
  (parse? text).bind ofJson?

/-! ### Rules and names -/

section Rules

open PathRules

/-- Rules as a record of two lists of patterns, which are empty by default. -/
def PathRules.fields (rules : PathRules) : List Json.Field :=
  [⟨includesKey, (· = .array (rules.includes.map .ofString)), rules.includes = []⟩,
    ⟨excludesKey, (· = .array (rules.excludes.map .ofString)), rules.excludes = []⟩]

def PathRules.Breaks (j : Json) : Prop :=
  Json.Breaks [includesKey, excludesKey] j

theorem PathRules.nodup_fields (rules : PathRules) : (rules.fields.map Json.Field.name).Nodup :=
  show [includesKey, excludesKey].Nodup by decide

theorem PathRules.spells_iff {rules : PathRules} {j : Json} :
    Json.SpellsRecord rules.fields j ↔
      ∃ entries, j.record? [includesKey, excludesKey] = some entries ∧
        entries.readOr includesKey Json.texts? [] = some rules.includes ∧
        entries.readOr excludesKey Json.texts? [] = some rules.excludes := by
  rw [Json.spellsRecord_iff rules.fields rules.nodup_fields]
  refine exists_congr fun entries => and_congr_right' ?_
  rw [fields, List.forall_mem_cons, List.forall_mem_singleton,
    Json.Field.holdsIn_iff_readOr (fun _ => Json.texts?_eq_some_iff) Iff.rfl,
    Json.Field.holdsIn_iff_readOr (fun _ => Json.texts?_eq_some_iff) Iff.rfl]

/-- Rules are read from the values that spell them. -/
theorem PathRules.ofJson?_eq_some_iff {j : Json} {rules : PathRules} :
    ofJson? j = some rules ↔ Json.SpellsRecord rules.fields j := by
  rw [spells_iff]
  simp only [ofJson?, Option.bind_eq_bind, Option.bind_eq_some_iff, Option.pure_def,
    Option.some.injEq]
  constructor
  · rintro ⟨entries, hentries, includes, hincludes, excludes, hexcludes, rfl⟩
    exact ⟨entries, hentries, hincludes, hexcludes⟩
  · rintro ⟨entries, hentries, hincludes, hexcludes⟩
    exact ⟨entries, hentries, _, hincludes, _, hexcludes, rfl⟩

theorem PathRules.not_spells_of_breaks {j : Json} (h : Breaks j) (rules : PathRules) :
    ¬ Json.SpellsRecord rules.fields j := by
  refine Json.not_spellsRecord_of_breaks rules.fields rules.nodup_fields ?_ h
  simp [fields]

theorem PathRules.isLegible_toJson (rules : PathRules) : rules.toJson.IsLegible := by
  refine .object fun member hmember => ?_
  have htexts : ∀ texts : List String, (Json.array (texts.map .ofString)).IsLegible := by
    intro texts
    refine .array fun item hitem => ?_
    obtain ⟨text, -, rfl⟩ := List.mem_map.1 hitem
    exact .string _
  simp only [List.mem_cons, List.not_mem_nil, or_false] at hmember
  rcases hmember with rfl | rfl
  · exact htexts rules.includes
  · exact htexts rules.excludes

theorem PathRules.ofJson?_toJson (rules : PathRules) : ofJson? rules.toJson = some rules := by
  refine ofJson?_eq_some_iff.2 (.object ?_ ?_)
  · simp
  · simp [fields, Json.Field.Offered, Json.valuesOf, includesKey, excludesKey]

theorem RepoName.ofJson?_eq_some_iff {j : Json} {repo : RepoName} :
    ofJson? j = some repo ↔ j = .ofString repo :=
  Json.text?_eq_some_iff

end Rules

/-! ### Settings -/

namespace Settings

/-- The values that give a layout of logs: its name, or an object with its name and null. -/
def GivesFormat (format : LogFormat) (j : Json) : Prop :=
  j = .ofString format.name ∨ j = .object [(.unicode format.name, .null)]

/-- The features as a record. -/
def featuresFields (enforced : Bool) : List Json.Field :=
  [⟨enforcedKey, (· = .bool enforced), enforced = default.enforced⟩]

/-- What is set about logs, as a record. -/
def loggingFields (level : String) (format : LogFormat) : List Json.Field :=
  [⟨levelKey, (· = .ofString level), level = default.level⟩,
    ⟨formatKey, GivesFormat format, format = default.format⟩]

/-- Settings as a record of records. A record may be left out where all of its fields have their
    defaults. -/
def fields (s : Settings) : List Json.Field :=
  [⟨featuresKey, Json.SpellsRecord (featuresFields s.enforced), s.enforced = default.enforced⟩,
    ⟨loggingKey, Json.SpellsRecord (loggingFields s.level s.format),
      s.level = default.level ∧ s.format = default.format⟩]

/-- Faults of settings: of the whole, of the features, or of what is set about logs. -/
inductive Breaks (j : Json) : Prop where
  | whole (h : Json.Breaks [featuresKey, loggingKey] j)
  | features {v : Json} (hv : Json.HoldsField [featuresKey, loggingKey] featuresKey v j)
      (h : Json.Breaks [enforcedKey] v)
  | logging {v : Json} (hv : Json.HoldsField [featuresKey, loggingKey] loggingKey v j)
      (h : Json.Breaks [levelKey, formatKey] v)

theorem nodup_featuresFields (enforced : Bool) :
    ((featuresFields enforced).map Json.Field.name).Nodup :=
  show [enforcedKey].Nodup by decide

theorem nodup_loggingFields (level : String) (format : LogFormat) :
    ((loggingFields level format).map Json.Field.name).Nodup :=
  show [levelKey, formatKey].Nodup by decide

theorem nodup_fields (s : Settings) : (s.fields.map Json.Field.name).Nodup :=
  show [featuresKey, loggingKey].Nodup by decide

theorem ofName?_eq_some_iff {name : String} {format : LogFormat} :
    LogFormat.ofName? name = some format ↔ name = format.name := by
  constructor
  · intro h
    have hname := List.find?_some h
    exact (beq_iff_eq.1 hname).symm
  · rintro rfl
    cases format <;> rfl

theorem formatOfJson?_eq_some_iff {j : Json} {format : LogFormat} :
    LogFormat.ofJson? j = some format ↔ GivesFormat format j := by
  simp only [LogFormat.ofJson?, Option.bind_eq_some_iff, ofName?_eq_some_iff, exists_eq_right,
    Json.variant?_eq_some_iff, GivesFormat]

theorem featuresOfJson?_eq_some_iff {j : Json} {enforced : Bool} :
    featuresOfJson? j = some enforced ↔ Json.SpellsRecord (featuresFields enforced) j := by
  rw [Json.spellsRecord_iff (featuresFields enforced) (nodup_featuresFields enforced)]
  simp only [featuresOfJson?, Option.bind_eq_bind, Option.bind_eq_some_iff]
  refine exists_congr fun entries => and_congr_right' ?_
  rw [featuresFields, List.forall_mem_singleton,
    Json.Field.holdsIn_iff_readOr (fun _ => Json.bool?_eq_some_iff) Iff.rfl]

theorem loggingOfJson?_eq_some_iff {j : Json} {level : String} {format : LogFormat} :
    loggingOfJson? j = some (level, format) ↔ Json.SpellsRecord (loggingFields level format) j := by
  rw [Json.spellsRecord_iff (loggingFields level format) (nodup_loggingFields level format)]
  simp only [loggingOfJson?, Option.bind_eq_bind, Option.bind_eq_some_iff, Option.pure_def,
    Option.some.injEq, Prod.mk.injEq]
  refine exists_congr fun entries => and_congr_right' ?_
  rw [loggingFields, List.forall_mem_cons, List.forall_mem_singleton,
    Json.Field.holdsIn_iff_readOr (fun _ => Json.text?_eq_some_iff) Iff.rfl,
    Json.Field.holdsIn_iff_readOr (fun _ => formatOfJson?_eq_some_iff) Iff.rfl]
  constructor
  · rintro ⟨level', hlevel, format', hformat, rfl, rfl⟩
    exact ⟨hlevel, hformat⟩
  · rintro ⟨hlevel, hformat⟩
    exact ⟨level, hlevel, format, hformat, rfl, rfl⟩

/-- Settings are read from the values that spell them. -/
theorem ofJson?_eq_some_iff {j : Json} {s : Settings} :
    ofJson? j = some s ↔ Json.SpellsRecord s.fields j := by
  rw [Json.spellsRecord_iff s.fields s.nodup_fields]
  simp only [ofJson?, Option.bind_eq_bind, Option.bind_eq_some_iff, Option.pure_def,
    Option.some.injEq, Prod.exists]
  refine exists_congr fun entries => and_congr_right' ?_
  have hdefaults : (s.level = default.level ∧ s.format = default.format) ↔
      (s.level, s.format) = (default.level, default.format) := by
    rw [Prod.mk.injEq]
  rw [fields, List.forall_mem_cons, List.forall_mem_singleton,
    Json.Field.holdsIn_iff_readOr (fun _ => featuresOfJson?_eq_some_iff) Iff.rfl,
    Json.Field.holdsIn_iff_readOr (fun _ => loggingOfJson?_eq_some_iff) hdefaults]
  constructor
  · rintro ⟨enforced, henforced, level, format, hlogging, rfl⟩
    exact ⟨henforced, hlogging⟩
  · rintro ⟨henforced, hlogging⟩
    exact ⟨_, henforced, _, _, hlogging, rfl⟩

theorem not_spells_of_breaks {j : Json} (h : Breaks j) (s : Settings) :
    ¬ Json.SpellsRecord s.fields j := by
  intro hspells
  cases h with
  | whole h =>
    refine Json.not_spellsRecord_of_breaks s.fields s.nodup_fields ?_ h hspells
    simp [fields, Json.not_spellsRecord_null]
  | features hv h =>
    have hgives := hspells.gives s.nodup_fields List.mem_cons_self hv
    refine Json.not_spellsRecord_of_breaks _ (nodup_featuresFields s.enforced) ?_ h hgives
    simp [featuresFields]
  | logging hv h =>
    have hgives := hspells.gives s.nodup_fields (List.mem_cons_of_mem _ List.mem_cons_self) hv
    refine Json.not_spellsRecord_of_breaks _ (nodup_loggingFields s.level s.format) ?_ h hgives
    simp [loggingFields, GivesFormat, Json.ofString]

end Settings

/-! ### Texts -/

namespace Json

section Texts

variable {α : Type} {ofJson? : Json → Option α} {text : String}

theorem read?_eq_some_iff {a : α} :
    read? ofJson? text = some a ↔ ∃ j, DocumentWritten j text ∧ ofJson? j = some a := by
  simp only [read?, Option.bind_eq_some_iff, parse?_eq_some_iff]

theorem read?_of_written {j : Json} (h : DocumentWritten j text) : read? ofJson? text = ofJson? j := by
  rw [read?, parse?_eq_some_iff.2 h, Option.bind_some]

/-- Text after a value makes no document, where a number is no value. -/
theorem read?_append (hnumber : ∀ literal, ofJson? (.number literal) = none) {j : Json} {rest : String}
    (h : DocumentWritten j text) (hrest : ∃ c ∈ rest.toList, isBlank c = false) :
    read? ofJson? (text ++ rest) = none := by
  rw [read?]
  cases hparse : parse? (text ++ rest) with
  | none => rfl
  | some j' =>
    obtain ⟨literal, rfl⟩ := exists_number_of_parse?_append h hrest hparse
    exact hnumber literal

end Texts

/-- A reader takes the texts that spell a value, and gives the value. It takes no text with a fault, and
    none in which anything but blanks comes after a value. -/
structure ReadsSpellings {α : Type} (ofJson? : Json → Option α) (Spells : α → Json → Prop)
    (Breaks : Json → Prop) : Prop where
  reads_iff (text : String) (a : α) :
    read? ofJson? text = some a ↔ ∃ j, DocumentWritten j text ∧ Spells a j
  refuses {text : String} {j : Json} (hwritten : DocumentWritten j text) (hbreaks : Breaks j) :
    read? ofJson? text = none
  ends {text rest : String} {j : Json} (hwritten : DocumentWritten j text)
    (hrest : ∃ c ∈ rest.toList, isBlank c = false) : read? ofJson? (text ++ rest) = none

theorem ReadsSpellings.of_iff {α : Type} {ofJson? : Json → Option α} {Spells : α → Json → Prop}
    {Breaks : Json → Prop} (hspells : ∀ {j a}, ofJson? j = some a ↔ Spells a j)
    (hbreaks : ∀ {j}, Breaks j → ∀ a, ¬ Spells a j)
    (hnumber : ∀ literal, ofJson? (.number literal) = none) : ReadsSpellings ofJson? Spells Breaks where
  reads_iff text a := by simp only [read?_eq_some_iff, hspells]
  refuses hwritten h := by
    rw [read?_of_written hwritten, Option.eq_none_iff_forall_ne_some]
    exact fun a ha => hbreaks h a (hspells.1 ha)
  ends := read?_append hnumber

/-- Both layouts of a value are read, whatever blanks come after the indented one. -/
def ReadsBack {α : Type} (ofJson? : Json → Option α) (toJson : α → Json) : Prop :=
  ∀ a, read? ofJson? (String.ofList (toJson a).compact) = some a ∧
    ∀ depth after, AreBlank after →
      read? ofJson? (String.ofList ((toJson a).pretty depth ++ after)) = some a

theorem ReadsBack.of_isLegible {α : Type} {ofJson? : Json → Option α} {toJson : α → Json}
    (hlegible : ∀ a, (toJson a).IsLegible) (hread : ∀ a, ofJson? (toJson a) = some a) :
    ReadsBack ofJson? toJson := by
  refine fun a => ⟨?_, fun depth after hafter => ?_⟩
  · rw [read?, parse?_compact (hlegible a), Option.bind_some, hread]
  · rw [read?, parse?_pretty (hlegible a) depth hafter, Option.bind_some, hread]

/-- All spellings of rules, of settings and of the name of a repository are read as what they spell, and
    nothing else is read. Rules and names are read back from both layouts of what is written. -/
theorem readsSpellings :
    ReadsSpellings PathRules.ofJson? (fun rules => SpellsRecord rules.fields) PathRules.Breaks ∧
    ReadsSpellings Settings.ofJson? (fun s => SpellsRecord s.fields) Settings.Breaks ∧
    ReadsSpellings RepoName.ofJson? (fun repo j => j = .ofString repo)
      (fun j => ∀ text, j ≠ .ofString text) ∧
    ReadsBack PathRules.ofJson? PathRules.toJson ∧ ReadsBack RepoName.ofJson? RepoName.toJson := by
  refine ⟨?_, ?_, ?_, ?_, ?_⟩
  · exact .of_iff PathRules.ofJson?_eq_some_iff PathRules.not_spells_of_breaks fun _ => rfl
  · exact .of_iff Settings.ofJson?_eq_some_iff Settings.not_spells_of_breaks fun _ => rfl
  · exact .of_iff RepoName.ofJson?_eq_some_iff (fun h => h) fun _ => rfl
  · exact .of_isLegible PathRules.isLegible_toJson PathRules.ofJson?_toJson
  · exact .of_isLegible (fun repo => .string _) fun _ => rfl

theorem readsSpellings_mixed :
    let rules := "\x7b\"x\": [null, \x7b\"path_includes\": null\x7d], \"path_excludes\": [\"\\u0062\"]\x7d"
    let settings := "[[true], \x7b\"format\": \x7b\"json\": null\x7d, \"level\": \"debug\"\x7d]"
    let faulty := object [(.unicode Settings.loggingKey, array [null])]
    (∃ j, DocumentWritten j rules ∧ SpellsRecord (PathRules.fields ⟨[], ["b"]⟩) j) ∧
      read? PathRules.ofJson? (rules ++ " 1") = none ∧
      (∃ j, DocumentWritten j settings ∧ SpellsRecord (Settings.fields ⟨true, "debug", .json⟩) j) ∧
      read? Settings.ofJson? (String.ofList faulty.compact) = none ∧
      read? RepoName.ofJson? (String.ofList (RepoName.toJson "a\"\n").compact) = some "a\"\n" := by
  intro rules settings faulty
  obtain ⟨hrules, hsettings, -, -, hback⟩ := readsSpellings
  obtain ⟨j, hwritten, hspells⟩ := (hrules.reads_iff rules ⟨[], ["b"]⟩).1 (by decide +kernel)
  have hlegible : faulty.IsLegible := .object fun member hmember => by
    obtain rfl := List.mem_singleton.1 hmember
    exact .array fun item hitem => List.mem_singleton.1 hitem ▸ .null
  have hbreaks : Settings.Breaks faulty :=
    .logging (.member List.mem_cons_self)
      (.null List.mem_cons_self (.item List.mem_cons_self))
  have hrest : ∃ c ∈ " 1".toList, isBlank c = false := ⟨'1', by decide +kernel, rfl⟩
  refine ⟨⟨j, hwritten, hspells⟩, hrules.ends hwritten hrest, ?_, ?_, (hback _).1⟩
  · exact (hsettings.reads_iff settings ⟨true, "debug", .json⟩).1 (by decide +kernel)
  · exact hsettings.refuses (parse?_eq_some_iff.1 (parse?_compact hlegible)) hbreaks

end Json

end PathGuard
