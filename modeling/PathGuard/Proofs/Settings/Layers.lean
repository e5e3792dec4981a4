import Mathlib.Data.List.Forall2
import PathGuard.Proofs.Settings.Tree
import PathGuard.Settings.Load

/-!
# Settings from layers

A layer sets some of the settings and leaves others alone. Layers that are put over one another set each
setting to what the highest of them sets it to that sets it at all, whichever layers set the others of
its section. What no layer sets takes its default, and the whole is checked then, and no layer before.

## Main definitions

- `Setting`: the settings, with their places
- `Choices`: what a layer sets
- `Choices.above`, `Choices.complete`: one layer over another, and the defaults under all of them
- `LayerSets`, `TreeSets`: the layers and trees that set choices

## Main results

- `LayerSets.arrange`: the order of the keys of a layer
- `TreeSets.addLayer`: one layer over a tree
- `ofLayers_of_sets`: the settings of layers
-/

namespace PathGuard.Settings

/-- What can be set, one by one. -/
inductive Setting where
  | enforced
  | level
  | format
  deriving DecidableEq

namespace Setting

/-- The section that a setting is in. -/
def sectionKey : Setting → String
  | enforced => featuresKey
  | level => loggingKey
  | format => loggingKey

/-- The key of a setting in its section. -/
def key : Setting → String
  | enforced => enforcedKey
  | level => levelKey
  | format => formatKey

def place (x : Setting) : List String :=
  [x.sectionKey, x.key]

end Setting

/-- What is set, where any of the settings may be left alone. -/
structure Choices where
  enforced? : Option Bool
  level? : Option String
  format? : Option LogFormat

namespace Choices

/-- Nothing is set. -/
def empty : Choices :=
  ⟨none, none, none⟩

/-- What is set if some choices win over others, setting by setting. -/
def above (high low : Choices) : Choices :=
  ⟨high.enforced?.or low.enforced?, high.level?.or low.level?, high.format?.or low.format?⟩

@[simp] theorem above_empty (c : Choices) : c.above empty = c := by
  rw [above, empty, Option.or_none, Option.or_none, Option.or_none]

/-- The settings if what is left alone takes its default. -/
def complete (c : Choices) : Settings :=
  ⟨c.enforced?.getD default.enforced, c.level?.getD default.level, c.format?.getD default.format⟩

/-- The value that a document has for a setting. -/
def value? (c : Choices) : Setting → Option Toml.Value
  | .enforced => c.enforced?.map .boolean
  | .level => c.level?.map .string
  | .format => c.format?.map fun format => .string format.name

theorem value?_above (high low : Choices) (x : Setting) :
    (high.above low).value? x = (high.value? x).or (low.value? x) := by
  cases x <;> exact Option.map_or

theorem isScalar_of_value? {c : Choices} {x : Setting} {v : Toml.Value} (h : c.value? x = some v) :
    (Tree.ofToml v).IsScalar := by
  cases x <;> obtain ⟨_, -, rfl⟩ := Option.map_eq_some_iff.1 h <;> exact trivial

end Choices

/-- A tree that sets choices: nothing covers the places of the settings over, and each has there what is
    chosen for it. -/
def TreeSets (t : Tree) (c : Choices) : Prop :=
  ∀ x : Setting, t.IsOpenAt x.place ∧ t.at? x.place = (c.value? x).map Tree.ofToml

/-- A layer that sets choices: no key of it covers the place of a setting over, and all keys that give the
    place anything give it what is chosen. Their order does not matter. -/
def LayerSets (layer : List (String × Tree)) (c : Choices) : Prop :=
  ∀ x : Setting, (∀ entry ∈ layer, (Tree.ofEntry entry).IsOpenAt x.place) ∧
    ∀ v, (∃ entry ∈ layer, (Tree.ofEntry entry).at? x.place = some v) ↔
      (c.value? x).map Tree.ofToml = some v

variable {t : Tree} {c d : Choices}

/-! ### From trees to settings -/

/-- A field that is read back as it was written, or has its default. -/
theorem readOr_of_lookup {α β : Type} {fields : Record α} {name : String} {read : α → Option β}
    {write : β → α} {chosen : Option β} (hread : ∀ b, read (write b) = some b)
    (h : fields.lookup name = chosen.map write) (default : β) :
    fields.readOr name read default = some (chosen.getD default) := by
  rw [Record.readOr, h]
  cases chosen with
  | none => rfl
  | some b => exact hread b

/-- A section that is missing is read as an empty one. -/
theorem readOr_section {β : Type} {entries fields : List (String × Tree)} {name : String}
    {read : Tree → Option β} {default : β}
    (h : entries.lookup name = some (.table fields) ∨ entries.lookup name = none ∧ fields = [])
    (hread : read (.table []) = some default) :
    Record.readOr entries name read default = read (.table fields) := by
  rw [Record.readOr]
  rcases h with h | ⟨h, rfl⟩
  · rw [h]
  · rw [h, hread]

/-- The section of a setting is missing or a table, and has what is chosen for each of its settings. -/
theorem TreeSets.exists_fields (h : TreeSets t c) (y : Setting) :
    ∃ fields, (t.entries.lookup y.sectionKey = some (.table fields) ∨
        t.entries.lookup y.sectionKey = none ∧ fields = []) ∧
      ∀ x : Setting, x.sectionKey = y.sectionKey → fields.lookup x.key = (c.value? x).map Tree.ofToml := by
  obtain ⟨⟨entries, rfl, -, hbelow⟩, -⟩ := h y
  have hplace : ∀ x : Setting, x.sectionKey = y.sectionKey →
      (entries.lookup y.sectionKey).bind (Tree.at? [x.key]) = (c.value? x).map Tree.ofToml := by
    intro x hx
    rw [← (h x).2, ← hx]
    rfl
  cases hlookup : entries.lookup y.sectionKey with
  | none =>
    refine ⟨[], .inr ⟨hlookup, rfl⟩, fun x hx => ?_⟩
    rw [← hplace x hx, hlookup]
    rfl
  | some below =>
    obtain ⟨fields, rfl, -⟩ := hbelow below hlookup
    refine ⟨fields, .inl hlookup, fun x hx => ?_⟩
    rw [← hplace x hx, hlookup, Option.bind_some, Tree.at?_cons, Tree.entries]
    exact (Option.bind_fun_some _).symm

theorem toBool?_ofToml (b : Bool) : (Tree.ofToml (.boolean b)).toBool? = some b :=
  rfl

theorem toText?_ofToml (s : String) : (Tree.ofToml (.string s)).toText? = some s :=
  rfl

theorem format?_ofToml (f : LogFormat) : format? (Tree.ofToml (.string f.name)) = some f := by
  cases f <;> rfl

theorem readOr_features (h : TreeSets t c) :
    Record.readOr t.entries featuresKey features? default.enforced = some c.complete.enforced := by
  obtain ⟨fields, hsection, hfields⟩ := h.exists_fields .enforced
  have henforced : fields.lookup enforcedKey = c.enforced?.map (Tree.ofToml ∘ .boolean) :=
    (hfields .enforced rfl).trans (Option.map_map ..)
  calc Record.readOr t.entries featuresKey features? default.enforced
      = features? (.table fields) := readOr_section hsection rfl
    _ = some c.complete.enforced := readOr_of_lookup toBool?_ofToml henforced _

theorem readOr_logging (h : TreeSets t c) :
    Record.readOr t.entries loggingKey logging? (default.level, default.format) =
      some (c.complete.level, c.complete.format) := by
  obtain ⟨fields, hsection, hfields⟩ := h.exists_fields .level
  have hlevel : Record.readOr fields levelKey Tree.toText? default.level = some c.complete.level :=
    readOr_of_lookup toText?_ofToml ((hfields .level rfl).trans (Option.map_map ..)) _
  have hformat : Record.readOr fields formatKey format? default.format = some c.complete.format :=
    readOr_of_lookup format?_ofToml ((hfields .format rfl).trans (Option.map_map ..)) _
  calc Record.readOr t.entries loggingKey logging? (default.level, default.format)
      = logging? (.table fields) := readOr_section hsection rfl
    _ = some (c.complete.level, c.complete.format) := by
      simp only [logging?, Tree.section?, Option.bind_eq_bind, Option.bind_some, hlevel, hformat]
      rfl

/-- A tree that sets choices gives the settings in which the defaults stand for what is left alone. -/
theorem TreeSets.ofTree?_eq (h : TreeSets t c) : ofTree? t = some c.complete := by
  rw [ofTree?, readOr_features h, Option.bind_eq_bind, Option.bind_some, readOr_logging h]
  rfl

/-! ### From layers to trees -/

/-- The empty tree sets nothing. -/
theorem treeSets_empty : TreeSets (.table []) .empty := by
  intro x
  refine ⟨Tree.isOpenAt_table_cons.2 ⟨List.nodup_nil, fun v hv => by cases hv⟩, ?_⟩
  cases x <;> rfl

/-- In whatever order the keys of a layer come, it sets the same. -/
theorem LayerSets.arrange {layer : List (String × Tree)} (h : LayerSets layer c) (order : KeyOrder) :
    LayerSets (order.arrange layer) c := by
  simpa only [LayerSets, (order.arrange_perm layer).mem_iff] using h

/-- A layer over a tree wins setting by setting. -/
theorem TreeSets.addLayer (h : TreeSets t c) {layer : List (String × Tree)} (hlayer : LayerSets layer d) :
    TreeSets (t.addLayer layer) (d.above c) := by
  intro x
  refine ⟨Tree.isOpenAt_addLayer (hlayer x).1 (h x).1, ?_⟩
  rw [Tree.at?_addLayer_of_unique (hlayer x).1 (hlayer x).2, (h x).2, Choices.value?_above,
    Option.map_or]

theorem TreeSets.foldl_addLayer (h : TreeSets t c) {layers : List (List (String × Tree))}
    {choices : List Choices} (hlayers : List.Forall₂ LayerSets layers choices) :
    TreeSets (layers.foldl Tree.addLayer t) (choices.foldl (fun low high => Choices.above high low) c) := by
  induction hlayers generalizing t c with
  | nil => exact h
  | cons hlayer _ ih => exact ih (h.addLayer hlayer)

/-- The settings of layers are put together from what each sets, the defaults standing for what none
    sets, and then checked. -/
theorem ofLayers_of_sets {layers : List (List (String × Tree))} {choices : List Choices}
    (h : List.Forall₂ LayerSets layers choices) :
    ofLayers layers = (choices.foldl (fun low high => Choices.above high low) .empty).complete.validate := by
  rw [ofLayers, (treeSets_empty.foldl_addLayer h).ofTree?_eq]

end PathGuard.Settings
