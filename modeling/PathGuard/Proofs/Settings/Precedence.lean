import Mathlib
import PathGuard.Proofs.Settings.Layers
import PathGuard.Proofs.Settings.Source
import PathGuard.Proofs.Toml.Distinct

/-!
# What wins over what

Settings that are loaded take each key from the environment if a variable sets it, otherwise from the
document if that sets it, and otherwise from the defaults. Nothing but the settings put together in this
way is checked: a level in a document that is no level does no harm where a variable sets another.

## Main definitions

- `IsUnrelated`: keys that have nothing to do with a setting
- `DocumentSets`: the documents that set choices
- `EnvironmentSets`: the environments that set choices
- `Reads`: the document that is read

## Main results

- `Environment.IsDistinct.set`, `Environment.IsDistinct.unset`: changes keep the names different
- `DocumentSets.layerSets`, `EnvironmentSets.layerSets`: both are layers that set the choices
- `load_of_choices`: the settings loaded
-/

namespace PathGuard

/-- The variables of an environment have different names. -/
def Environment.IsDistinct (e : Environment) : Prop :=
  (e.bindings.map Prod.fst).Nodup

namespace Environment

theorem isDistinct_empty : empty.IsDistinct :=
  List.nodup_nil

/-- Setting a variable that is not set yet gives it a new name. -/
theorem IsDistinct.set {e : Environment} (h : e.IsDistinct) (name value : String) :
    (e.set name value).IsDistinct := by
  rw [Environment.set]
  split
  · rw [IsDistinct, List.map_map]
    refine (congrArg List.Nodup (List.map_congr_left ?_)).mpr h
    rintro ⟨n, v⟩ -
    exact (apply_ite Prod.fst ..).trans (ite_self n)
  · next hnew =>
    rw [Option.not_isSome_iff_eq_none] at hnew
    rw [IsDistinct, List.map_append, List.map_singleton, ← List.concat_eq_append]
    exact h.concat (Record.lookup_eq_none_iff.1 hnew)

theorem IsDistinct.unset {e : Environment} (h : e.IsDistinct) (name : String) :
    (e.unset name).IsDistinct :=
  h.sublist (List.filter_sublist.map Prod.fst)

end Environment

namespace Settings

/-- Keys of a layer that neither write to the place of a setting nor cover it over. -/
def IsUnrelated (key : String) : Prop :=
  ∀ x : Setting, (KeyPath.ofKey key).turnsOff x.place = true

/-- What the key of a section of a document has, if the section is a table. -/
def documentValue? (t : Toml.Table) (sectionKey key : String) : Option Toml.Value :=
  match t.lookup sectionKey with
  | some (.table fields) => fields.lookup key
  | _ => none

/-- A document that sets choices. Its sections are tables, in which other keys may stand, and next to
    the sections there are only unrelated keys. -/
structure DocumentSets (t : Toml.Table) (c : Choices) : Prop where
  sets : ∀ x : Setting, documentValue? t x.sectionKey x.key = c.value? x
  isTable : ∀ x : Setting, ∀ v, t.lookup x.sectionKey = some v → ∃ fields, v = .table fields
  unrelated : ∀ entry ∈ t, (∀ x : Setting, entry.1 ≠ x.sectionKey) → IsUnrelated entry.1

/-- The variable that sets a setting. -/
def Setting.variableName : Setting → String
  | enforced => "SUBREPO_AUTHZ_EXPERIMENTAL_FEATURES__ENABLE_SUB_REPO_PERMISSIONS"
  | level => "SUBREPO_AUTHZ_LOGGING__LEVEL"
  | format => "SUBREPO_AUTHZ_LOGGING__FORMAT"

/-- The text that a variable has for a setting. -/
def Choices.text? (c : Choices) : Setting → Option String
  | .enforced => c.enforced?.map fun b => if b then "true" else "false"
  | .level => c.level?
  | .format => c.format?.map LogFormat.name

/-- Texts of variables that read neither as a truth value nor as a number. -/
def ReadsAsText (text : String) : Prop :=
  Ascii.lowered text ∉ ["true", "false"] ∧ Ascii.integer64? text.toList = none ∧
    float? text.toList = none

instance : DecidablePred ReadsAsText := fun _ => instDecidableAnd

/-- An environment that sets choices. All other variables that set a key set an unrelated one. -/
structure EnvironmentSets (e : Environment) (c : Choices) : Prop where
  isDistinct : e.IsDistinct
  sets : ∀ x : Setting, e.get? x.variableName = c.text? x
  readsAsText : ∀ level, c.level? = some level → ReadsAsText level
  unrelated : ∀ binding ∈ e.bindings, (∀ x : Setting, binding.1 ≠ x.variableName) →
    ∀ key, variableKey? binding.1 = some key → IsUnrelated key

/-- The document that is read, as the table that its text writes. Without one nothing is set. -/
inductive Reads (s : Surroundings) (path : Option String) : Toml.Table → Prop
  | document {place : String} {bytes : List UInt8} {t : Toml.Table}
      (hsource : source s path = .ok (some place)) (hbytes : documentBytes? s place = some bytes)
      (ht : Toml.parse? .claiming (Utf8.decodeLossy (Utf8.dropMark bytes)) = some t)
      (hlegible : Toml.entriesLegible Ascii.isInteger64 t = true) : Reads s path t
  | nothing (hsource : source s path = .ok none) : Reads s path []

variable {c : Choices}

/-! ### Documents -/

theorem ofTomlEntries_eq_map (entries : List (String × Toml.Value)) :
    Tree.ofTomlEntries entries = entries.map fun entry => (entry.1, Tree.ofToml entry.2) := by
  induction entries with
  | nil => rfl
  | cons entry entries ih => rw [Tree.ofTomlEntries, ih, List.map_cons]

theorem lookup_ofTomlEntries (entries : List (String × Toml.Value)) (name : String) :
    (Tree.ofTomlEntries entries).lookup name = (entries.lookup name).map Tree.ofToml := by
  induction entries with
  | nil => rfl
  | cons entry entries ih =>
    obtain ⟨key, v⟩ := entry
    rw [Tree.ofTomlEntries, List.lookup_cons, List.lookup_cons, ih]
    cases name == key <;> rfl

theorem keys_ofTomlEntries (entries : List (String × Toml.Value)) :
    (Tree.ofTomlEntries entries).map Prod.fst = entries.map Prod.fst := by
  rw [ofTomlEntries_eq_map, List.map_map]
  rfl

theorem ofKey_sectionKey (x : Setting) : KeyPath.ofKey x.sectionKey = [.key x.sectionKey] := by
  cases x <;> decide +kernel

theorem isOpenAt_ofEntry_sectionKey (x y : Setting) (v : Tree) :
    (Tree.ofEntry (y.sectionKey, v)).IsOpenAt x.place ↔
      (x.sectionKey = y.sectionKey → v.IsOpenAt [x.key]) := by
  rw [Tree.ofEntry, ofKey_sectionKey, Setting.place, Tree.isOpenAt_single_key, Tree.single]

theorem at?_ofEntry_sectionKey (x y : Setting) (v : Tree) :
    (Tree.ofEntry (y.sectionKey, v)).at? x.place =
      if x.sectionKey = y.sectionKey then v.entries.lookup x.key else none := by
  rw [Tree.ofEntry, ofKey_sectionKey, Setting.place, Tree.at?_single_key, Tree.single, Tree.at?_cons]
  exact if_congr Iff.rfl (Option.bind_fun_some _) rfl

variable {t : Toml.Table}

/-- A section that a document has is a table without repeated keys, with what is chosen in it. -/
theorem DocumentSets.exists_fields (h : DocumentSets t c) (ht : (Toml.Value.table t).IsDistinct)
    {y : Setting} {v : Toml.Value} (hv : (y.sectionKey, v) ∈ t) :
    ∃ fields, v = .table fields ∧ (fields.map Prod.fst).Nodup ∧
      ∀ x : Setting, x.sectionKey = y.sectionKey → fields.lookup x.key = c.value? x := by
  obtain ⟨hnodup, hvalues⟩ := Toml.Value.isDistinct_table.1 ht
  have hlookup := Record.lookup_of_mem hnodup hv
  obtain ⟨fields, rfl⟩ := h.isTable y v hlookup
  refine ⟨fields, rfl, (Toml.Value.isDistinct_table.1 (hvalues _ hv)).1, fun x hx => ?_⟩
  rw [← h.sets x, documentValue?, hx, hlookup]

/-- No entry of a document covers the place of a setting over. -/
theorem DocumentSets.isOpenAt (h : DocumentSets t c) (ht : (Toml.Value.table t).IsDistinct)
    {entry : String × Toml.Value} (hentry : entry ∈ t) (x : Setting) :
    (Tree.ofEntry (entry.1, Tree.ofToml entry.2)).IsOpenAt x.place := by
  obtain ⟨key, v⟩ := entry
  by_cases hkey : ∃ y : Setting, key = y.sectionKey
  · obtain ⟨y, rfl⟩ := hkey
    obtain ⟨fields, rfl, hnodup, hfields⟩ := h.exists_fields ht hentry
    refine (isOpenAt_ofEntry_sectionKey x y _).2 fun hsection => ?_
    rw [Tree.ofToml, Tree.isOpenAt_table_cons, keys_ofTomlEntries]
    refine ⟨hnodup, fun below hbelow => ?_⟩
    rw [lookup_ofTomlEntries, hfields x hsection] at hbelow
    obtain ⟨written, hwritten, rfl⟩ := Option.map_eq_some_iff.1 hbelow
    exact Choices.isScalar_of_value? hwritten
  · have hunrelated := h.unrelated _ hentry fun y heq => hkey ⟨y, heq⟩
    exact KeyPath.isOpenAt_of_turnsOff (hunrelated x) _

/-- Entries of a document under another key than its section give a setting nothing. -/
theorem DocumentSets.at?_eq_none (h : DocumentSets t c) {entry : String × Toml.Value}
    (hentry : entry ∈ t) {x : Setting} (hother : entry.1 ≠ x.sectionKey) :
    (Tree.ofEntry (entry.1, Tree.ofToml entry.2)).at? x.place = none := by
  obtain ⟨key, v⟩ := entry
  by_cases hkey : ∃ y : Setting, key = y.sectionKey
  · obtain ⟨y, rfl⟩ := hkey
    exact (at?_ofEntry_sectionKey x y _).trans (if_neg (Ne.symm hother))
  · have hunrelated := h.unrelated _ hentry fun y heq => hkey ⟨y, heq⟩
    exact KeyPath.at?_of_turnsOff (hunrelated x) _

theorem DocumentSets.layerSets (h : DocumentSets t c) (ht : (Toml.Value.table t).IsDistinct) :
    LayerSets (Tree.ofTomlEntries t) c := by
  have hnodup := (Toml.Value.isDistinct_table.1 ht).1
  intro x
  constructor
  · rw [ofTomlEntries_eq_map, List.forall_mem_map]
    exact fun entry hentry => h.isOpenAt ht hentry x
  · intro v
    rw [Record.exists_mem_eq_some_iff (by rwa [keys_ofTomlEntries]) (fun entry hentry hother => ?_),
      lookup_ofTomlEntries, ← h.sets x, documentValue?]
    · cases hlookup : t.lookup x.sectionKey with
      | none => rfl
      | some written =>
        obtain ⟨fields, rfl⟩ := h.isTable x written hlookup
        rw [Option.map_some, Option.bind_some, at?_ofEntry_sectionKey, if_pos rfl, Tree.ofToml,
          Tree.entries, lookup_ofTomlEntries]
    · rw [ofTomlEntries_eq_map] at hentry
      obtain ⟨written, hwritten, rfl⟩ := List.mem_map.1 hentry
      exact h.at?_eq_none hwritten hother

/-! ### Environments -/

variable {entries layer : List (String × Tree)} {entry : String × Tree} {key : String}

theorem mem_of_mem_setKey {set : String × Tree} (h : entry ∈ setKey layer set) :
    entry = set ∨ entry ∈ layer := by
  rw [setKey] at h
  induction layer with
  | nil => exact .inl (List.mem_singleton.1 h)
  | cons first layer ih =>
    obtain ⟨k, old⟩ := first
    rw [Tree.updateKey] at h
    split at h
    · next hk =>
      exact (List.mem_cons.1 h).imp (·.trans (Prod.ext hk rfl)) (List.mem_cons_of_mem _)
    · rcases List.mem_cons.1 h with rfl | h
      · exact .inr List.mem_cons_self
      · exact (ih h).imp_right (List.mem_cons_of_mem _)

theorem mem_keys_setKey (layer : List (String × Tree)) (entry : String × Tree) :
    key ∈ (setKey layer entry).map Prod.fst ↔ key ∈ layer.map Prod.fst ∨ key = entry.1 := by
  rw [setKey, Tree.keys_updateKey]
  split
  · next hold => exact ⟨.inl, fun h => h.elim id fun hkey => hkey ▸ hold⟩
  · rw [List.mem_append, List.mem_singleton]

theorem mem_of_mem_distinctKeys (h : entry ∈ distinctKeys entries) : entry ∈ entries := by
  refine List.foldlRecOn entries setKey (motive := fun layer => ∀ entry ∈ layer, entry ∈ entries)
    (by simp) (fun layer ih set hset entry hentry => ?_) entry h
  rcases mem_of_mem_setKey hentry with rfl | hold
  · exact hset
  · exact ih entry hold

theorem mem_keys_foldl_setKey (entries layer : List (String × Tree)) :
    key ∈ (entries.foldl setKey layer).map Prod.fst ↔
      key ∈ layer.map Prod.fst ∨ key ∈ entries.map Prod.fst := by
  induction entries generalizing layer with
  | nil => simp
  | cons entry entries ih =>
    rw [List.foldl_cons, ih, mem_keys_setKey, List.map_cons, List.mem_cons, or_assoc]

/-- No key is lost. -/
theorem exists_mem_distinctKeys (h : entry ∈ entries) :
    ∃ value, (entry.1, value) ∈ distinctKeys entries := by
  have hkey := (mem_keys_foldl_setKey entries []).2 (.inr (List.mem_map_of_mem h))
  obtain ⟨⟨key, value⟩, hmem, hfst⟩ := List.mem_map.1 hkey
  exact ⟨value, hfst ▸ hmem⟩

theorem variableKey?_variableName (x : Setting) :
    variableKey? x.variableName = some (x.sectionKey ++ "." ++ x.key) := by
  cases x <;> decide +kernel

theorem ofKey_variableKey (x : Setting) :
    KeyPath.ofKey (x.sectionKey ++ "." ++ x.key) = [.key x.sectionKey, .key x.key] := by
  cases x <;> decide +kernel

theorem at?_ofEntry_variableKey (x : Setting) (v : Tree) :
    (Tree.ofEntry (x.sectionKey ++ "." ++ x.key, v)).at? x.place = some v := by
  rw [Tree.ofEntry, ofKey_variableKey, Setting.place, Tree.at?_single_key, Tree.at?_single_key,
    if_pos rfl, if_pos rfl]
  rfl

/-- The tree that a variable writes. -/
def ofBinding? (binding : String × String) : Option Tree :=
  (variableKey? binding.1).map fun key => Tree.ofEntry (key, variableValue binding.2)

theorem ofBinding?_variableName (x : Setting) (text : String) :
    ofBinding? (x.variableName, text) =
      some (Tree.ofEntry (x.sectionKey ++ "." ++ x.key, variableValue text)) := by
  rw [ofBinding?, variableKey?_variableName, Option.map_some]

theorem variableValue_of_readsAsText {text : String} (h : ReadsAsText text) :
    variableValue text = .text text := by
  obtain ⟨hword, hinteger, hfloat⟩ := h
  simp only [List.mem_cons, List.not_mem_nil, or_false, not_or] at hword
  rw [variableValue, if_neg hword.1, if_neg hword.2, hinteger, hfloat]

theorem readsAsText_name (f : LogFormat) : ReadsAsText f.name := by
  cases f <;> decide +kernel

variable {e : Environment}

/-- The text of a variable that sets a setting reads as the value chosen. -/
theorem EnvironmentSets.map_variableValue (h : EnvironmentSets e c) (x : Setting) :
    (c.text? x).map variableValue = (c.value? x).map Tree.ofToml := by
  cases x with
  | enforced =>
    rw [Choices.text?, Choices.value?, Option.map_map, Option.map_map]
    refine Option.map_congr fun b _ => ?_
    cases b <;> rfl
  | level =>
    rw [Choices.text?, Choices.value?, Option.map_map]
    refine Option.map_congr fun level hlevel => ?_
    exact variableValue_of_readsAsText (h.readsAsText level hlevel)
  | format =>
    rw [Choices.text?, Choices.value?, Option.map_map, Option.map_map]
    exact Option.map_congr fun f _ => variableValue_of_readsAsText (readsAsText_name f)

/-- No variable covers the place of a setting over. -/
theorem EnvironmentSets.isOpenAt (h : EnvironmentSets e c) {binding : String × String}
    (hbinding : binding ∈ e.bindings) {t : Tree} (ht : ofBinding? binding = some t) (x : Setting) :
    t.IsOpenAt x.place := by
  obtain ⟨name, text⟩ := binding
  by_cases hname : ∃ y : Setting, name = y.variableName
  · obtain ⟨y, rfl⟩ := hname
    rw [ofBinding?_variableName, Option.some.injEq] at ht
    have htext : c.text? y = some text :=
      (h.sets y).symm.trans (Record.lookup_of_mem h.isDistinct hbinding)
    have hvalue := h.map_variableValue y
    rw [htext] at hvalue
    obtain ⟨written, hwritten, hsame⟩ := Option.map_eq_some_iff.1 hvalue.symm
    rw [← ht, ← hsame, Tree.ofEntry, ofKey_variableKey, Setting.place, Tree.isOpenAt_single_key]
    intro _
    rw [Tree.isOpenAt_single_key]
    intro _
    exact Choices.isScalar_of_value? hwritten
  · obtain ⟨key, hkey, rfl⟩ := Option.map_eq_some_iff.1 ht
    have hunrelated := h.unrelated _ hbinding (fun y heq => hname ⟨y, heq⟩) key hkey
    exact KeyPath.isOpenAt_of_turnsOff (hunrelated x) _

/-- Variables that do not set a setting give it nothing. -/
theorem EnvironmentSets.bind_at?_eq_none (h : EnvironmentSets e c) {binding : String × String}
    (hbinding : binding ∈ e.bindings) {x : Setting} (hother : binding.1 ≠ x.variableName) :
    (ofBinding? binding).bind (Tree.at? x.place) = none := by
  obtain ⟨name, text⟩ := binding
  by_cases hname : ∃ y : Setting, name = y.variableName
  · obtain ⟨y, rfl⟩ := hname
    have hplace : ¬ (x.sectionKey = y.sectionKey ∧ x.key = y.key) := by
      cases x <;> cases y <;> first | exact absurd rfl hother | decide +kernel
    rw [ofBinding?_variableName, Option.bind_some, Tree.ofEntry, ofKey_variableKey, Setting.place,
      Tree.at?_single_key, Tree.at?_single_key, ← ite_and]
    exact if_neg hplace
  · rw [Option.bind_eq_none_iff]
    intro t ht
    obtain ⟨key, hkey, rfl⟩ := Option.map_eq_some_iff.1 ht
    have hunrelated := h.unrelated _ hbinding (fun y heq => hname ⟨y, heq⟩) key hkey
    exact KeyPath.at?_of_turnsOff (hunrelated x) _

/-- Only the variable of a setting gives it anything. -/
theorem EnvironmentSets.name_eq (h : EnvironmentSets e c) {binding : String × String}
    (hbinding : binding ∈ e.bindings) {x : Setting} {v : Tree}
    (hat : (ofBinding? binding).bind (Tree.at? x.place) = some v) : binding.1 = x.variableName := by
  by_contra hother
  rw [h.bind_at?_eq_none hbinding hother] at hat
  cases hat

/-- What the variable of a setting gives it is chosen. -/
theorem EnvironmentSets.exists_binding_iff (h : EnvironmentSets e c) (x : Setting) (v : Tree) :
    (∃ binding ∈ e.bindings, (ofBinding? binding).bind (Tree.at? x.place) = some v) ↔
      (c.value? x).map Tree.ofToml = some v := by
  rw [Record.exists_mem_eq_some_iff h.isDistinct fun binding hbinding hother =>
    h.bind_at?_eq_none hbinding hother, ← h.map_variableValue x, ← h.sets x, Environment.get?]
  cases e.bindings.lookup x.variableName with
  | none => rfl
  | some text =>
    rw [Option.bind_some, ofBinding?_variableName, Option.bind_some, at?_ofEntry_variableKey]
    rfl

theorem mem_variableEntries {binding : String × String} (h : binding ∈ e.bindings) {key : String}
    (hkey : variableKey? binding.1 = some key) :
    (key, variableValue binding.2) ∈ variableEntries e :=
  List.mem_filterMap.2 ⟨binding, h, Option.map_eq_some_iff.2 ⟨key, hkey, rfl⟩⟩

theorem exists_binding_of_mem_variableLayer {entry : String × Tree} (h : entry ∈ variableLayer e) :
    ∃ binding ∈ e.bindings, ofBinding? binding = some (Tree.ofEntry entry) := by
  obtain ⟨binding, hbinding, hwritten⟩ := List.mem_filterMap.1 (mem_of_mem_distinctKeys h)
  obtain ⟨key, hkey, rfl⟩ := Option.map_eq_some_iff.1 hwritten
  exact ⟨binding, hbinding, by rw [ofBinding?, hkey]; rfl⟩

/-- A key that several variables set has what one of them sets. If it is the key of a setting, that is
    the variable of the setting. -/
theorem EnvironmentSets.layerSets (h : EnvironmentSets e c) : LayerSets (variableLayer e) c := by
  intro x
  refine ⟨fun entry hentry => ?_, fun v => ?_⟩
  · obtain ⟨binding, hbinding, hwritten⟩ := exists_binding_of_mem_variableLayer hentry
    exact h.isOpenAt hbinding hwritten x
  · rw [← h.exists_binding_iff x v]
    constructor
    · rintro ⟨entry, hentry, hat⟩
      obtain ⟨binding, hbinding, hwritten⟩ := exists_binding_of_mem_variableLayer hentry
      exact ⟨binding, hbinding, by rw [hwritten, Option.bind_some, hat]⟩
    · rintro ⟨binding, hbinding, hat⟩
      obtain ⟨t, hwritten, hvalue⟩ := Option.bind_eq_some_iff.1 hat
      obtain ⟨key, hkey, rfl⟩ := Option.map_eq_some_iff.1 hwritten
      obtain ⟨value, hlayer⟩ := exists_mem_distinctKeys (mem_variableEntries hbinding hkey)
      obtain ⟨other, hother, hotherWritten⟩ := exists_binding_of_mem_variableLayer hlayer
      have hname := h.name_eq hbinding hat
      obtain rfl : key = x.sectionKey ++ "." ++ x.key := by
        rw [hname, variableKey?_variableName] at hkey
        exact (Option.some.inj hkey).symm
      have hotherName : other.1 = x.variableName := h.name_eq hother (by
        rw [hotherWritten, Option.bind_some, at?_ofEntry_variableKey])
      have hsame : other = binding :=
        List.inj_on_of_nodup_map h.isDistinct hother hbinding (hotherName.trans hname.symm)
      rw [hsame, hwritten, Option.some.injEq] at hotherWritten
      exact ⟨_, hlayer, hotherWritten ▸ hvalue⟩

/-! ### What is loaded -/

theorem validate_eq (effective : Settings) :
    effective.validate =
      if effective.level = "" then .error (.missing "logging.level")
      else if Ascii.lowered effective.level ∈ ["trace", "debug", "info", "warn", "error"] then
        .ok effective
      else .error (.invalid ("logging.level must be one of trace, debug, info, warn, error, got: "
        ++ effective.level)) := by
  have hmessage : "logging.level must be one of " ++ ", ".intercalate levels ++ ", got: " =
      "logging.level must be one of trace, debug, info, warn, error, got: " := by decide +kernel
  rw [validate, hmessage, isLevel]
  simp only [String.isEmpty_iff, List.contains_iff_mem]
  rfl

variable {s : Surroundings} {path : Option String}

/-- The document that is read is a layer, or there is none. -/
theorem Reads.load_eq (h : Reads s path t) :
    load s path = ofLayers [s.orders.document.arrange (Tree.ofTomlEntries t),
      s.orders.environment.arrange (variableLayer s.environment)] := by
  cases h with
  | document hsource hbytes ht hlegible =>
    rw [load_of_source hsource, ofPlace, layerOfFile, hbytes]
    simp only [layerOfText, ht, hlegible, if_true]
    rfl
  | nothing hsource => rw [load_of_source hsource, ofPlace, Tree.ofTomlEntries, arrange_nil]

theorem Reads.isDistinct (h : Reads s path t) : (Toml.Value.table t).IsDistinct := by
  cases h with
  | document _ _ ht _ => exact Toml.isDistinct_of_parse? ht
  | nothing _ => exact Toml.Value.isDistinct_table.2 ⟨List.nodup_nil, by simp⟩

/-- Settings that are loaded are, key by key, what the environment sets, otherwise what the document
    sets, and otherwise the default, in whatever order the keys of either come. They are refused if the
    level put together in this way is empty, or if it is none of the levels in whatever case, and otherwise
    have it as it is spelled. -/
theorem load_of_choices {file env : Choices} (hread : Reads s path t) (hfile : DocumentSets t file)
    (henv : EnvironmentSets s.environment env) :
    load s path =
      let effective := (env.above file).complete
      if effective.level = "" then .error (.missing "logging.level")
      else if Ascii.lowered effective.level ∈ ["trace", "debug", "info", "warn", "error"] then
        .ok effective
      else .error (.invalid ("logging.level must be one of trace, debug, info, warn, error, got: "
        ++ effective.level)) := by
  have hlayers := List.Forall₂.cons ((hfile.layerSets hread.isDistinct).arrange s.orders.document)
    (.cons (henv.layerSets.arrange s.orders.environment) .nil)
  rw [hread.load_eq, ofLayers_of_sets hlayers, List.foldl_cons, List.foldl_cons, List.foldl_nil,
    Choices.above_empty]
  exact validate_eq _

/-- A level in a document that is no level does no harm where a variable sets another. -/
theorem load_of_choices_masked :
    let text := "title = 'x'\n[logging]\nlevel = 'loud'\nformat = 'json'"
    let e : Environment := ⟨[("HOME", "/root"), ("SUBREPO_AUTHZ_LOGGING__LEVEL", "Warn"),
      ("SUBREPO_AUTHZ_LOGGING__COLOR", "true")]⟩
    let s : Surroundings := { look := fun _ => some (.file (Utf8.encode text)), environment := e }
    load s (some "c.toml") = .ok ⟨false, "Warn", .json⟩ := by
  intro text e s
  have ht : Toml.parse? .claiming text = some [("title", .string "x"),
      ("logging", .table [("level", .string "loud"), ("format", .string "json")])] := by cbv
  have hdecoded : Utf8.decodeLossy (Utf8.dropMark (Utf8.encode text)) = text := by decide +kernel
  have hread : Reads s (some "c.toml") _ :=
    .document rfl rfl (hdecoded.symm ▸ ht) rfl
  have hfile : DocumentSets [("title", .string "x"),
      ("logging", .table [("level", .string "loud"), ("format", .string "json")])]
      ⟨none, some "loud", some .json⟩ := by
    refine ⟨?_, ?_, ?_⟩
    · rintro (_ | _ | _) <;> rfl
    · rintro (_ | _ | _) v hv
      · cases hv
      · exact ⟨_, (Option.some.inj hv).symm⟩
      · exact ⟨_, (Option.some.inj hv).symm⟩
    · simp only [List.forall_mem_cons]
      refine ⟨fun _ => ?_, fun h => absurd rfl (h .level), by simp⟩
      rintro (_ | _ | _) <;> decide +kernel
  have henv : EnvironmentSets e ⟨none, some "Warn", none⟩ := by
    have hcolor : variableKey? "SUBREPO_AUTHZ_LOGGING__COLOR" = some "logging.color" := by
      decide +kernel
    refine ⟨?_, ?_, ?_, ?_⟩
    · exact (by decide +kernel : (e.bindings.map Prod.fst).Nodup)
    · rintro (_ | _ | _) <;> decide +kernel
    · rintro _ ⟨⟩
      decide +kernel
    · simp only [e, List.forall_mem_cons]
      refine ⟨fun _ key hkey => ?_, fun h => absurd rfl (h .level), fun _ key hkey => ?_, by simp⟩
      · cases hkey
      · obtain rfl := Option.some.inj (hcolor.symm.trans hkey)
        rintro (_ | _ | _) <;> decide +kernel
  exact load_of_choices hread hfile henv

end Settings

end PathGuard
