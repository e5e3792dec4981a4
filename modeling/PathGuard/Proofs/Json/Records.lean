import Mathlib.Data.List.Nodup
import PathGuard.Json.Shape
import PathGuard.Proofs.Record

/-!
# Spellings of a record

The JSON values that spell one record: objects with its fields in any order, among members of which the
names are unknown, and arrays of the fields in order. A field may be left out where it has its default.

## Main definitions

- `Json.Field`: a field of a record with the value that it has
- `Json.SpellsRecord`: the values that spell a record
- `Json.Breaks`: the values that spell no record, whatever else is in them

## Main results

- `Json.spellsRecord_iff`: reading the fields of a record
- `Json.SpellsRecord.gives`: what a spelling holds for a field is a value of it
- `Json.not_spellsRecord_of_breaks`: the faults of a spelling
-/

namespace PathGuard.Json

/-- A field of a record: its name, the JSON values that give it the value that it has, and whether that
    value is its default. -/
structure Field where
  name : String
  Gives : Json → Prop
  IsDefault : Prop

/-- The values that an object has under a name, in order. -/
def valuesOf (name : String) (members : List (Text × Json)) : List Json :=
  (members.filter (·.1 = .unicode name)).map Prod.snd

/-- An object offers a field once, or leaves it out where it has its default. -/
def Field.Offered (f : Field) (members : List (Text × Json)) : Prop :=
  (∃ v, valuesOf f.name members = [v] ∧ f.Gives v) ∨ (valuesOf f.name members = [] ∧ f.IsDefault)

/-- An array gives fields in their order. The ones at the end may be left out where they have their
    defaults. -/
inductive GiveInOrder : List Field → List Json → Prop where
  | omitted {fs : List Field} (h : ∀ f ∈ fs, f.IsDefault) : GiveInOrder fs []
  | given {f : Field} {fs : List Field} {item : Json} {items : List Json} (hf : f.Gives item)
      (hfs : GiveInOrder fs items) : GiveInOrder (f :: fs) (item :: items)

/-- The values that spell a record with the given fields. -/
inductive SpellsRecord (fs : List Field) : Json → Prop where
  | object {members : List (Text × Json)} (hkeys : ∀ m ∈ members, m.1 ≠ .broken)
      (hfields : ∀ f ∈ fs, f.Offered members) : SpellsRecord fs (.object members)
  | array {items : List Json} (h : GiveInOrder fs items) : SpellsRecord fs (.array items)

/-- The value that an object or an array holds for a field, among fields of the given names. -/
inductive HoldsField (names : List String) (name : String) (v : Json) : Json → Prop where
  | member {members : List (Text × Json)} (h : (.unicode name, v) ∈ members) :
      HoldsField names name v (.object members)
  | item {items : List Json} (h : (name, v) ∈ names.zip items) : HoldsField names name v (.array items)

/-- Faults of a record with fields of the given names: a field that is given twice, more items than
    fields, and a field that is given as null. -/
inductive Breaks (names : List String) : Json → Prop where
  | twice {members : List (Text × Json)} {name : String} (hname : name ∈ names)
      (h : 2 ≤ (valuesOf name members).length) : Breaks names (.object members)
  | excess {items : List Json} (h : names.length < items.length) : Breaks names (.array items)
  | null {j : Json} {name : String} (hname : name ∈ names) (h : HoldsField names name .null j) :
      Breaks names j

/-! ### Values -/

section Values

variable {j : Json}

theorem text?_eq_some_iff {text : String} : j.text? = some text ↔ j = .ofString text := by
  constructor
  · intro h
    unfold text? at h
    split at h
    · rw [Option.some.inj h, ofString]
    · cases h
  · rintro rfl
    rfl

theorem bool?_eq_some_iff {b : Bool} : j.bool? = some b ↔ j = .bool b := by
  constructor
  · intro h
    unfold bool? at h
    split at h
    · rw [Option.some.inj h]
    · cases h
  · rintro rfl
    rfl

theorem mapM_text?_eq_some_iff {items : List Json} {texts : List String} :
    items.mapM text? = some texts ↔ items = texts.map .ofString := by
  induction items generalizing texts with
  | nil => cases texts <;> simp
  | cons item items ih =>
    simp only [List.mapM_cons, Option.bind_eq_bind, Option.bind_eq_some_iff, text?_eq_some_iff, ih,
      Option.pure_def, Option.some.injEq]
    constructor
    · rintro ⟨text, rfl, later, rfl, rfl⟩
      rfl
    · intro h
      cases texts with
      | nil => cases h
      | cons text texts =>
        obtain ⟨rfl, rfl⟩ := List.cons.inj h
        exact ⟨text, rfl, texts, rfl, rfl⟩

theorem texts?_eq_some_iff {texts : List String} :
    j.texts? = some texts ↔ j = .array (texts.map .ofString) := by
  cases j with
  | array items => rw [texts?, mapM_text?_eq_some_iff, Json.array.injEq]
  | _ => simp [texts?]

theorem variant?_eq_some_iff {name : String} :
    j.variant? = some name ↔ j = .ofString name ∨ j = .object [(.unicode name, .null)] := by
  constructor
  · intro h
    unfold variant? at h
    split at h
    · rw [Option.some.inj h]
      exact .inl rfl
    · rw [Option.some.inj h]
      exact .inr rfl
    · cases h
  · rintro (rfl | rfl) <;> rfl

end Values

/-! ### Members -/

theorem keyed?_eq_some_iff {members : List (Text × Json)} {entries : Record Json} :
    keyed? members = some entries ↔ members = entries.map fun e => (.unicode e.1, e.2) := by
  induction members generalizing entries with
  | nil => cases entries <;> simp [keyed?]
  | cons member members ih =>
    obtain ⟨key, value⟩ := member
    cases key with
    | broken => cases entries <;> simp [keyed?]
    | unicode key =>
      simp only [keyed?, Option.map_eq_some_iff, ih]
      constructor
      · rintro ⟨later, rfl, rfl⟩
        rfl
      · intro h
        cases entries with
        | nil => cases h
        | cons entry entries =>
          obtain ⟨hentry, rfl⟩ := List.cons.inj h
          obtain ⟨hkey, rfl⟩ := Prod.mk.inj hentry
          cases hkey
          exact ⟨entries, rfl, rfl⟩

theorem exists_keyed_iff {members : List (Text × Json)} :
    (∃ entries, keyed? members = some entries) ↔ ∀ m ∈ members, m.1 ≠ .broken := by
  induction members with
  | nil => simp [keyed?]
  | cons member members ih =>
    obtain ⟨key, value⟩ := member
    cases key with
    | broken => simp [keyed?]
    | unicode key =>
      rw [List.forall_mem_cons, ← ih]
      simp [keyed?]

section Entries

variable {entries : Record Json} {name : String}

theorem valuesOf_entries (entries : Record Json) (name : String) :
    valuesOf name (entries.map fun e => (.unicode e.1, e.2)) =
      (entries.filter (·.1 == name)).map Prod.snd := by
  induction entries with
  | nil => rfl
  | cons entry entries ih =>
    by_cases h : entry.1 = name
    · simpa [valuesOf, h] using ih
    · simpa [valuesOf, h] using ih

theorem lookup_eq_head? (entries : Record Json) (name : String) :
    entries.lookup name = ((entries.filter (·.1 == name)).map Prod.snd).head? := by
  induction entries with
  | nil => rfl
  | cons entry entries ih =>
    obtain ⟨key, v⟩ := entry
    rw [Record.lookup_cons_ite]
    by_cases h : name = key
    · simp [h]
    · rw [if_neg h, ih, List.filter_cons_of_neg (by simpa using Ne.symm h)]

/-- A field has its value by entries: the one that is found under its name, or its default. -/
def Field.HoldsIn (f : Field) (entries : Record Json) : Prop :=
  match entries.lookup f.name with
  | some v => f.Gives v
  | none => f.IsDefault

theorem offered_iff (f : Field) (entries : Record Json) :
    f.Offered (entries.map fun e => (.unicode e.1, e.2)) ↔
      atMostOnce entries f.name = true ∧ f.HoldsIn entries := by
  rw [Field.Offered, valuesOf_entries, atMostOnce, decide_eq_true_iff, Field.HoldsIn, lookup_eq_head?,
    ← List.length_map Prod.snd]
  generalize (entries.filter (·.1 == f.name)).map Prod.snd = values
  rcases values with _ | ⟨v, _ | ⟨w, later⟩⟩ <;> simp

end Entries

/-! ### Records -/

theorem giveInOrder_iff {fs : List Field} (hnames : (fs.map Field.name).Nodup) {items : List Json} :
    GiveInOrder fs items ↔
      items.length ≤ (fs.map Field.name).length ∧
        ∀ f ∈ fs, f.HoldsIn (Record.ofItems (fs.map Field.name) items) := by
  induction fs generalizing items with
  | nil =>
    cases items with
    | nil => exact ⟨fun _ => ⟨Nat.le_refl 0, by simp⟩, fun _ => .omitted (by simp)⟩
    | cons item items => exact ⟨nofun, fun h => absurd h.1 (by simp)⟩
  | cons f fs ih =>
    cases items with
    | nil =>
      constructor
      · intro h
        cases h with
        | omitted h => exact ⟨Nat.zero_le _, h⟩
      · rintro ⟨-, h⟩
        exact .omitted h
    | cons item items =>
      rw [List.map_cons, List.nodup_cons] at hnames
      -- the first item is found under the first name, which no later field has
      have hfirst : f.HoldsIn (Record.ofItems (f.name :: fs.map Field.name) (item :: items)) ↔
          f.Gives item := by
        rw [Field.HoldsIn, Record.ofItems, List.zip_cons_cons, List.lookup_cons_self]
      have hlater : ∀ g ∈ fs,
          (g.HoldsIn (Record.ofItems (f.name :: fs.map Field.name) (item :: items)) ↔
            g.HoldsIn (Record.ofItems (fs.map Field.name) items)) := by
        intro g hg
        have hne : g.name ≠ f.name := fun h => hnames.1 (h ▸ List.mem_map_of_mem hg)
        rw [Field.HoldsIn, Field.HoldsIn, Record.ofItems, List.zip_cons_cons, Record.lookup_cons_ite,
          if_neg hne, Record.ofItems]
      rw [List.map_cons, List.forall_mem_cons, hfirst, forall₂_congr hlater]
      constructor
      · intro h
        cases h with
        | given hf hfs =>
          obtain ⟨hlength, hholds⟩ := (ih hnames.2).1 hfs
          exact ⟨Nat.succ_le_succ hlength, hf, hholds⟩
      · rintro ⟨hlength, hf, hholds⟩
        exact .given hf ((ih hnames.2).2 ⟨Nat.le_of_succ_le_succ hlength, hholds⟩)

/-- A value spells a record if it has the shape of one, and every field has its value by it. -/
theorem spellsRecord_iff (fs : List Field) (hnames : (fs.map Field.name).Nodup) {j : Json} :
    SpellsRecord fs j ↔
      ∃ entries, j.record? (fs.map Field.name) = some entries ∧ ∀ f ∈ fs, f.HoldsIn entries := by
  cases j with
  | object members =>
    constructor
    · intro h
      cases h with
      | object hkeys hfields =>
        obtain ⟨entries, hentries⟩ := exists_keyed_iff.2 hkeys
        have hoffered := fun f hf =>
          (offered_iff f entries).1 (keyed?_eq_some_iff.1 hentries ▸ hfields f hf)
        refine ⟨entries, ?_, fun f hf => (hoffered f hf).2⟩
        simp only [record?, hentries, Option.bind_eq_bind, Option.bind_some]
        rw [if_pos]
        simpa using fun f hf => (hoffered f hf).1
    · rintro ⟨entries, hrecord, hholds⟩
      simp only [record?, Option.bind_eq_bind, Option.bind_eq_some_iff,
        Option.ite_none_right_eq_some] at hrecord
      obtain ⟨entries', hentries, honce, heq⟩ := hrecord
      obtain rfl := Option.some.inj heq
      refine .object (exists_keyed_iff.1 ⟨entries', hentries⟩) fun f hf => ?_
      rw [keyed?_eq_some_iff.1 hentries, offered_iff]
      exact ⟨List.all_eq_true.1 honce _ (List.mem_map_of_mem hf), hholds f hf⟩
  | array items =>
    have harray : SpellsRecord fs (.array items) ↔ GiveInOrder fs items :=
      ⟨fun h => by cases h; assumption, .array⟩
    rw [harray, giveInOrder_iff hnames, record?]
    simp
  | _ => exact ⟨nofun, by simp [record?]⟩

theorem not_spellsRecord_null {fs : List Field} : ¬ SpellsRecord fs .null :=
  nofun

/-! ### Reading fields -/

theorem Field.holdsIn_iff_readOr {α : Type} {f : Field} {read : Json → Option α} {v default : α}
    (hgives : ∀ j, read j = some v ↔ f.Gives j) (hdefault : f.IsDefault ↔ v = default)
    (entries : Record Json) :
    f.HoldsIn entries ↔ Record.readOr entries f.name read default = some v := by
  rw [Field.HoldsIn, Record.readOr]
  cases entries.lookup f.name with
  | some j => exact (hgives j).symm
  | none => rw [Option.some.injEq, hdefault, eq_comm]

/-! ### Faults -/

section Faults

variable {fs : List Field} {j : Json}

theorem GiveInOrder.length_le {items : List Json} (h : GiveInOrder fs items) :
    items.length ≤ fs.length := by
  induction h with
  | omitted => exact Nat.zero_le _
  | given _ _ ih => exact Nat.succ_le_succ ih

theorem GiveInOrder.gives {items : List Json} (h : GiveInOrder fs items) {name : String} {v : Json}
    (hv : (name, v) ∈ (fs.map Field.name).zip items) : ∃ f ∈ fs, f.name = name ∧ f.Gives v := by
  induction h with
  | omitted => simp at hv
  | @given f _ _ _ hf _ ih =>
    rw [List.map_cons, List.zip_cons_cons, List.mem_cons] at hv
    rcases hv with heq | hv
    · obtain ⟨rfl, rfl⟩ := Prod.mk.inj heq
      exact ⟨f, List.mem_cons_self, rfl, hf⟩
    · obtain ⟨g, hg, hname, hgives⟩ := ih hv
      exact ⟨g, List.mem_cons_of_mem _ hg, hname, hgives⟩

theorem mem_valuesOf {members : List (Text × Json)} {name : String} {v : Json}
    (h : (.unicode name, v) ∈ members) : v ∈ valuesOf name members :=
  List.mem_map.2 ⟨_, List.mem_filter.2 ⟨h, by simp⟩, rfl⟩

/-- What a spelling holds for a field is a value of it. -/
theorem SpellsRecord.gives (h : SpellsRecord fs j) (hnames : (fs.map Field.name).Nodup) {f : Field}
    (hf : f ∈ fs) {v : Json} (hv : HoldsField (fs.map Field.name) f.name v j) : f.Gives v := by
  cases hv with
  | member hv =>
    cases h with
    | object _ hfields =>
      have hmem := mem_valuesOf hv
      rcases hfields f hf with ⟨w, hvalues, hgives⟩ | ⟨hvalues, -⟩ <;> rw [hvalues] at hmem
      · rwa [List.mem_singleton.1 hmem]
      · cases hmem
  | item hv =>
    cases h with
    | array h =>
      obtain ⟨g, hg, hname, hgives⟩ := h.gives hv
      rwa [List.inj_on_of_nodup_map hnames hg hf hname] at hgives

/-- A value with a fault spells no record, if null is a value of none of its fields. -/
theorem not_spellsRecord_of_breaks (fs : List Field) (hnames : (fs.map Field.name).Nodup)
    (hnull : ∀ f ∈ fs, ¬ f.Gives .null) (hbreaks : Breaks (fs.map Field.name) j) :
    ¬ SpellsRecord fs j := by
  intro h
  cases hbreaks with
  | twice hname htwice =>
    obtain ⟨f, hf, rfl⟩ := List.mem_map.1 hname
    cases h with
    | object _ hfields =>
      rcases hfields f hf with ⟨v, hvalues, -⟩ | ⟨hvalues, -⟩ <;> simp [hvalues] at htwice
  | excess hlength =>
    cases h with
    | array h =>
      rw [List.length_map] at hlength
      exact absurd h.length_le (Nat.not_le_of_lt hlength)
  | null hname hv =>
    obtain ⟨f, hf, rfl⟩ := List.mem_map.1 hname
    exact hnull f hf (h.gives hnames hf hv)

end Faults

end PathGuard.Json
