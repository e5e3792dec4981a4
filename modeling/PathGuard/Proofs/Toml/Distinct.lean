import Mathlib.Data.List.Nodup
import PathGuard.Toml.Document

/-!
# Keys of tables

A document that is read has each key of each of its tables once: the statements of the document change
tables under assembly key by key, and no change of a table gives it a key that it has.

## Main definitions

- `Value.IsDistinct`: values whose tables have each key once
- `AreDistinct`: the entries of tables under assembly that become such values

## Main results

- `keeps_modify`: a change of the table at the end of a path
- `isDistinct_of_parse?`: the tables of a document
-/

namespace PathGuard.Toml

mutual

/-- Values in which every table has each of its keys once. -/
def Value.IsDistinct : Value → Prop
  | .array items => AllDistinct items
  | .table entries => (entries.map Prod.fst).Nodup ∧ EntriesDistinct entries
  | _ => True

/-- Items in which every table has each of its keys once. -/
def AllDistinct : List Value → Prop
  | [] => True
  | v :: vs => v.IsDistinct ∧ AllDistinct vs

/-- Entries in whose values every table has each of its keys once. -/
def EntriesDistinct : List (String × Value) → Prop
  | [] => True
  | (_, v) :: entries => v.IsDistinct ∧ EntriesDistinct entries

end

/-- The entries of a table under assembly that becomes one whose tables have each key once. -/
def AreDistinct (es : Entries) : Prop :=
  (Value.table (entryValues es)).IsDistinct

/-- A change of tables under assembly that gives no table a key that it has. -/
def Change.Keeps (change : Change) : Prop :=
  ∀ origin es origin' es', AreDistinct es → change origin es = some (origin', es') → AreDistinct es'

theorem allDistinct_iff {items : List Value} : AllDistinct items ↔ ∀ v ∈ items, v.IsDistinct := by
  induction items with
  | nil => simp [AllDistinct]
  | cons v items ih => rw [AllDistinct, ih, List.forall_mem_cons]

theorem entriesDistinct_iff {entries : List (String × Value)} :
    EntriesDistinct entries ↔ ∀ entry ∈ entries, entry.2.IsDistinct := by
  induction entries with
  | nil => simp [EntriesDistinct]
  | cons entry entries ih => rw [EntriesDistinct, ih, List.forall_mem_cons]

theorem Value.isDistinct_table {entries : List (String × Value)} :
    (table entries).IsDistinct ↔
      (entries.map Prod.fst).Nodup ∧ ∀ entry ∈ entries, entry.2.IsDistinct := by
  rw [IsDistinct, entriesDistinct_iff]

theorem Value.isDistinct_array {items : List Value} :
    (array items).IsDistinct ↔ ∀ v ∈ items, v.IsDistinct := by
  rw [IsDistinct, allDistinct_iff]

/-! ### Tables under assembly -/

theorem entryValues_eq_map (es : Entries) :
    entryValues es = es.map fun entry => (entry.1, entry.2.value) := by
  induction es with
  | nil => rfl
  | cons entry es ih => rw [entryValues, ih, List.map_cons]

theorem areDistinct_iff {es : Entries} :
    AreDistinct es ↔ (es.map Prod.fst).Nodup ∧ ∀ entry ∈ es, entry.2.value.IsDistinct := by
  rw [AreDistinct, Value.isDistinct_table, entryValues_eq_map, List.map_map, List.forall_mem_map]
  rfl

theorem areDistinct_nil : AreDistinct [] :=
  areDistinct_iff.2 ⟨List.nodup_nil, by simp⟩

theorem elementValues_eq (elements : List Entries) (later : List Value) :
    elementValues elements later =
      (elements.map fun es => .table (entryValues es)).reverse ++ later := by
  induction elements generalizing later with
  | nil => rfl
  | cons es elements ih => rw [elementValues, ih]; simp

theorem isDistinct_tables {elements : List Entries} :
    (Node.tables elements).value.IsDistinct ↔ ∀ es ∈ elements, AreDistinct es := by
  rw [Node.value, elementValues_eq, List.append_nil, Value.isDistinct_array]
  simp only [List.mem_reverse, List.forall_mem_map]
  rfl

theorem keys_setEntry (es : Entries) (key : String) (node : Node) :
    (setEntry es key node).map Prod.fst =
      if key ∈ es.map Prod.fst then es.map Prod.fst else es.map Prod.fst ++ [key] := by
  induction es with
  | nil => simp [setEntry]
  | cons entry es ih =>
    obtain ⟨k, n⟩ := entry
    rw [setEntry]
    split
    · next h => simp [h]
    · next h =>
      rw [List.map_cons, ih, List.map_cons]
      simp only [List.mem_cons, Ne.symm h, false_or]
      split <;> rfl

theorem mem_setEntry {es : Entries} {key : String} {node : Node} {entry : String × Node}
    (h : entry ∈ setEntry es key node) : entry ∈ es ∨ entry = (key, node) := by
  induction es with
  | nil => exact .inr (by simpa [setEntry] using h)
  | cons first es ih =>
    obtain ⟨k, n⟩ := first
    rw [setEntry] at h
    split at h
    · next hkey =>
      rcases List.mem_cons.1 h with rfl | h
      · exact .inr (by rw [hkey])
      · exact .inl (List.mem_cons_of_mem _ h)
    · rcases List.mem_cons.1 h with rfl | h
      · exact .inl List.mem_cons_self
      · exact (ih h).imp_left (List.mem_cons_of_mem _)

/-- Setting a key to a value whose tables have each key once. -/
theorem AreDistinct.setEntry {es : Entries} (h : AreDistinct es) (key : String) {node : Node}
    (hnode : node.value.IsDistinct) : AreDistinct (setEntry es key node) := by
  obtain ⟨hkeys, hvalues⟩ := areDistinct_iff.1 h
  refine areDistinct_iff.2 ⟨?_, fun entry hentry => ?_⟩
  · rw [keys_setEntry]
    split
    · exact hkeys
    · next hnew =>
      rw [← List.concat_eq_append]
      exact hkeys.concat hnew
  · rcases mem_setEntry hentry with hold | rfl
    · exact hvalues entry hold
    · exact hnode

theorem AreDistinct.of_lookup {es : Entries} (h : AreDistinct es) {key : String} {node : Node}
    (hnode : es.lookup key = some node) : node.value.IsDistinct := by
  obtain ⟨before, after, rfl, -⟩ := List.lookup_eq_some_iff.1 hnode
  exact (areDistinct_iff.1 h).2 (key, node) (by simp)

/-- A change of the table at the end of a path gives no table on the way a key that it has. -/
theorem keeps_modify (w : Walker) {change : Change} (hchange : change.Keeps) (path : List String) :
    (modify w change path).Keeps := by
  induction path with
  | nil => exact hchange
  | cons key path ih =>
    intro origin es origin' es' hes h
    rw [modify] at h
    split at h
    · -- the table is made
      obtain ⟨⟨o, inner⟩, hinner, h⟩ := Option.bind_eq_some_iff.1 h
      obtain ⟨rfl, rfl⟩ := Prod.mk.inj (Option.some.inj h)
      exact hes.setEntry key (ih _ _ _ _ areDistinct_nil hinner)
    · next o inner hlookup =>
      obtain ⟨passed, -, h⟩ := Option.bind_eq_some_iff.1 h
      obtain ⟨⟨o', inner'⟩, hinner, h⟩ := Option.bind_eq_some_iff.1 h
      obtain ⟨rfl, rfl⟩ := Prod.mk.inj (Option.some.inj h)
      exact hes.setEntry key (ih _ _ _ _ (hes.of_lookup hlookup) hinner)
    · next last before hlookup =>
      obtain ⟨⟨o, inner⟩, hinner, h⟩ := Option.bind_eq_some_iff.1 h
      obtain ⟨rfl, rfl⟩ := Prod.mk.inj (Option.some.inj h)
      obtain ⟨hlast, hbefore⟩ := List.forall_mem_cons.1 (isDistinct_tables.1 (hes.of_lookup hlookup))
      exact hes.setEntry key
        (isDistinct_tables.2 (List.forall_mem_cons.2 ⟨ih _ _ _ _ hlast hinner, hbefore⟩))
    · cases h

theorem keeps_openTable (key : String) : (openTable key).Keeps := by
  intro origin es origin' es' hes h
  rw [openTable] at h
  split at h
  · obtain ⟨rfl, rfl⟩ := Prod.mk.inj (Option.some.inj h)
    exact hes.setEntry key areDistinct_nil
  · next inner hlookup =>
    obtain ⟨rfl, rfl⟩ := Prod.mk.inj (Option.some.inj h)
    have hinner : AreDistinct inner := hes.of_lookup hlookup
    exact hes.setEntry key hinner
  · cases h

theorem keeps_appendTable (key : String) : (appendTable key).Keeps := by
  intro origin es origin' es' hes h
  rw [appendTable] at h
  split at h
  · obtain ⟨rfl, rfl⟩ := Prod.mk.inj (Option.some.inj h)
    exact hes.setEntry key (isDistinct_tables.2 (by simp [areDistinct_nil]))
  · next elements hlookup =>
    obtain ⟨rfl, rfl⟩ := Prod.mk.inj (Option.some.inj h)
    have helements := isDistinct_tables.1 (hes.of_lookup hlookup)
    exact hes.setEntry key (isDistinct_tables.2 (List.forall_mem_cons.2 ⟨areDistinct_nil, helements⟩))
  · cases h

theorem keeps_assign (dotted : Bool) (key : String) {value : Value} (hvalue : value.IsDistinct) :
    (assign dotted key value).Keeps := by
  intro origin es origin' es' hes h
  rw [assign] at h
  split at h
  · cases h
  · split at h
    · cases h
    · obtain ⟨rfl, rfl⟩ := Prod.mk.inj (Option.some.inj h)
      exact hes.setEntry key hvalue

theorem keeps_assignAt (passage : Passage) (way : List String) (key : String) {value : Value}
    (hvalue : value.IsDistinct) : (assignAt passage way key value).Keeps :=
  keeps_modify _ (keeps_assign _ key hvalue) way

/-- Statements whose values have each key of each of their tables once. -/
def Statement.IsDistinct : Statement → Prop
  | assignment _ _ value => value.IsDistinct
  | _ => True

theorem areDistinct_apply {passage : Passage} {d d' : Draft} {s : Statement} (hd : AreDistinct d.entries)
    (hs : s.IsDistinct) (h : d.apply passage s = some d') : AreDistinct d'.entries := by
  have hchange : ∀ {c : Change} {current}, c.Keeps → d.change c current = some d' →
      AreDistinct d'.entries := by
    intro c current hc h
    obtain ⟨⟨o, es⟩, hes, rfl⟩ := Option.map_eq_some_iff.1 h
    exact hc _ _ _ _ hd hes
  cases s with
  | table way key => exact hchange (keeps_modify _ (keeps_openTable key) way) h
  | element way key => exact hchange (keeps_modify _ (keeps_appendTable key) way) h
  | assignment way key value =>
    exact hchange (keeps_modify _ (keeps_assignAt passage way key hs) d.current) h

theorem areDistinct_foldlM_apply {passage : Passage} {d d' : Draft} {statements : List Statement}
    (hd : AreDistinct d.entries) (hs : ∀ s ∈ statements, s.IsDistinct)
    (h : statements.foldlM (Draft.apply passage) d = some d') : AreDistinct d'.entries := by
  induction statements generalizing d with
  | nil =>
    obtain rfl := Option.some.inj h
    exact hd
  | cons s statements ih =>
    obtain ⟨next, hnext, h⟩ := Option.bind_eq_some_iff.1 h
    obtain ⟨hfirst, hlater⟩ := List.forall_mem_cons.1 hs
    exact ih (areDistinct_apply hd hfirst hnext) hlater h

theorem isDistinct_of_assemble? {passage : Passage} {statements : List Statement} {t : Table}
    (hs : ∀ s ∈ statements, s.IsDistinct) (h : assemble? passage statements = some t) :
    (Value.table t).IsDistinct := by
  obtain ⟨d, hd, rfl⟩ := Option.map_eq_some_iff.1 h
  exact areDistinct_foldlM_apply areDistinct_nil hs hd

/-! ### Reading -/

theorem areDistinct_foldlM_assignAt {assignments : List ((List String × String) × Value)}
    {origin origin' : Origin} {es es' : Entries} (hes : AreDistinct es)
    (hvalues : ∀ a ∈ assignments, a.2.IsDistinct)
    (h : assignments.foldlM (fun (origin, entries) ((way, key), value) =>
      assignAt .leaving way key value origin entries) (origin, es) = some (origin', es')) :
    AreDistinct es' := by
  induction assignments generalizing origin es with
  | nil =>
    obtain ⟨-, rfl⟩ := Prod.mk.inj (Option.some.inj h)
    exact hes
  | cons a assignments ih =>
    obtain ⟨⟨way, key⟩, value⟩ := a
    obtain ⟨hfirst, hlater⟩ := List.forall_mem_cons.1 hvalues
    obtain ⟨⟨o, next⟩, hnext, h⟩ := Option.bind_eq_some_iff.1 h
    exact ih (keeps_assignAt .leaving way key hfirst _ _ _ _ hes hnext) hlater h

theorem isDistinct_of_inlineTable? {assignments : List ((List String × String) × Value)} {v : Value}
    (hvalues : ∀ a ∈ assignments, a.2.IsDistinct) (h : inlineTable? assignments = some v) :
    v.IsDistinct := by
  obtain ⟨⟨o, es⟩, hes, h⟩ := Option.bind_eq_some_iff.1 h
  obtain rfl := Option.some.inj h
  exact areDistinct_foldlM_assignAt areDistinct_nil hvalues hes

section Scalars

variable {cs unsigned : List Char} {v : Value}

theorem isDistinct_of_readString {rest : List Char} (h : readString cs = some (v, rest)) :
    v.IsDistinct := by
  obtain ⟨⟨text, rest'⟩, -, h⟩ := Option.map_eq_some_iff.1 h
  obtain ⟨rfl, -⟩ := Prod.mk.inj h
  trivial

theorem Scalar.isDistinct_of_ofBase? {base : Nat} (h : ofBase? base cs = some v) : v.IsDistinct := by
  rw [ofBase?] at h
  split at h
  · obtain ⟨digits, -, rfl⟩ := Option.map_eq_some_iff.1 h
    split <;> trivial
  · cases h

theorem Scalar.isDistinct_of_integer? (h : integer? cs = some v) : v.IsDistinct := by
  obtain ⟨digits, -, rfl⟩ := Option.map_eq_some_iff.1 h
  split <;> trivial

theorem Scalar.isDistinct_of_float? (h : float? cs = some v) : v.IsDistinct := by
  obtain ⟨digits, -, h⟩ := Option.bind_eq_some_iff.1 h
  obtain ⟨x, -, h⟩ := Option.bind_eq_some_iff.1 h
  obtain rfl := Option.some.inj h
  split <;> trivial

theorem Scalar.isDistinct_of_numeric? (h : numeric? cs unsigned = some v) : v.IsDistinct := by
  -- what is no date or time is an integer or a floating-point number, or nothing at all
  have hnumber : integer? cs = some v ∨ float? cs = some v ∨
      (Datetime.ofChars? cs).map .datetime = some v := by
    rw [numeric?] at h
    grind
  rcases hnumber with h | h | h
  · exact isDistinct_of_integer? h
  · exact isDistinct_of_float? h
  · obtain ⟨d, -, rfl⟩ := Option.map_eq_some_iff.1 h
    trivial

/-- An unquoted value is no table and no array. -/
theorem Scalar.isDistinct_of_ofChars? (h : ofChars? cs = some v) : v.IsDistinct := by
  unfold ofChars? at h
  split at h
  · obtain rfl := Option.some.inj h
    trivial
  · obtain rfl := Option.some.inj h
    trivial
  · exact isDistinct_of_ofBase? h
  · exact isDistinct_of_ofBase? h
  · exact isDistinct_of_ofBase? h
  · dsimp only at h
    split at h
    · obtain rfl := Option.some.inj h
      trivial
    · split at h
      · obtain rfl := Option.some.inj h
        trivial
      · exact isDistinct_of_numeric? h

end Scalars

/-- Values that are read have each key of each of their tables once. -/
theorem isDistinct_of_readValue (fuel : Nat) :
    (∀ depth cs v rest, readValue fuel depth cs = some (v, rest) → v.IsDistinct) ∧
    (∀ depth cs items rest, readItems fuel depth cs = some (items, rest) →
      ∀ v ∈ items, v.IsDistinct) ∧
    ∀ depth cs assignments rest, readAssignments fuel depth cs = some (assignments, rest) →
      ∀ a ∈ assignments, a.2.IsDistinct := by
  induction fuel with
  | zero => simp [readValue, readItems, readAssignments]
  | succ fuel ih =>
    obtain ⟨hvalue, hitems, hassignments⟩ := ih
    refine ⟨fun depth cs v rest h => ?_, fun depth cs items rest h => ?_,
      fun depth cs assignments rest h => ?_⟩
    · cases cs with
      | nil => cases h
      | cons c cs =>
        rw [readValue.eq_def] at h
        dsimp only at h
        split at h
        · exact isDistinct_of_readString h
        · exact isDistinct_of_readString h
        · split at h
          · cases h
          · obtain ⟨cs', -, h⟩ := Option.bind_eq_some_iff.1 h
            obtain ⟨⟨items, rest'⟩, hread, h⟩ := Option.bind_eq_some_iff.1 h
            obtain ⟨rfl, -⟩ := Prod.mk.inj (Option.some.inj h)
            exact Value.isDistinct_array.2 (hitems _ _ _ _ hread)
        · split at h
          · cases h
          · obtain ⟨cs', -, h⟩ := Option.bind_eq_some_iff.1 h
            obtain ⟨⟨assignments, rest'⟩, hread, h⟩ := Option.bind_eq_some_iff.1 h
            obtain ⟨t, ht, h⟩ := Option.bind_eq_some_iff.1 h
            obtain ⟨rfl, -⟩ := Prod.mk.inj (Option.some.inj h)
            exact isDistinct_of_inlineTable? (hassignments _ _ _ _ hread) ht
        · obtain ⟨v', hv', h⟩ := Option.map_eq_some_iff.1 h
          obtain ⟨rfl, -⟩ := Prod.mk.inj h
          exact Scalar.isDistinct_of_ofChars? hv'
    · rw [readItems.eq_def] at h
      split at h
      · cases h
      · obtain ⟨rfl, -⟩ := Prod.mk.inj (Option.some.inj h)
        simp
      · next heq _ =>
        obtain rfl := Nat.succ.inj heq
        obtain ⟨⟨item, rest'⟩, hitem, h⟩ := Option.bind_eq_some_iff.1 h
        obtain ⟨cs', -, h⟩ := Option.bind_eq_some_iff.1 h
        have hfirst := hvalue _ _ _ _ hitem
        split at h
        · obtain ⟨rfl, -⟩ := Prod.mk.inj (Option.some.inj h)
          simpa using hfirst
        · obtain ⟨cs', -, h⟩ := Option.bind_eq_some_iff.1 h
          obtain ⟨⟨later, rest''⟩, hlater, h⟩ := Option.bind_eq_some_iff.1 h
          obtain ⟨rfl, -⟩ := Prod.mk.inj (Option.some.inj h)
          exact List.forall_mem_cons.2 ⟨hfirst, hitems _ _ _ _ hlater⟩
        · cases h
    · rw [readAssignments.eq_def] at h
      split at h
      · cases h
      · obtain ⟨rfl, -⟩ := Prod.mk.inj (Option.some.inj h)
        simp
      · next heq _ =>
        obtain rfl := Nat.succ.inj heq
        obtain ⟨⟨path, rest'⟩, -, h⟩ := Option.bind_eq_some_iff.1 h
        obtain ⟨⟨value, rest''⟩, hread, h⟩ := Option.bind_eq_some_iff.1 h
        obtain ⟨cs', -, h⟩ := Option.bind_eq_some_iff.1 h
        have hfirst := hvalue _ _ _ _ hread
        split at h
        · obtain ⟨rfl, -⟩ := Prod.mk.inj (Option.some.inj h)
          simpa using hfirst
        · obtain ⟨cs', -, h⟩ := Option.bind_eq_some_iff.1 h
          obtain ⟨⟨later, rest''⟩, hlater, h⟩ := Option.bind_eq_some_iff.1 h
          obtain ⟨rfl, -⟩ := Prod.mk.inj (Option.some.inj h)
          exact List.forall_mem_cons.2 ⟨hfirst, hassignments _ _ _ _ hlater⟩
        · cases h

theorem isDistinct_of_readStatement {fuel : Nat} {cs rest : List Char} {s : Statement}
    (h : readStatement fuel cs = some (s, rest)) : s.IsDistinct := by
  rw [readStatement.eq_def] at h
  split at h
  · obtain ⟨⟨⟨way, key⟩, rest'⟩, -, h⟩ := Option.bind_eq_some_iff.1 h
    dsimp only at h
    split at h
    · obtain ⟨rfl, -⟩ := Prod.mk.inj (Option.some.inj h)
      trivial
    · cases h
  · obtain ⟨⟨⟨way, key⟩, rest'⟩, -, h⟩ := Option.bind_eq_some_iff.1 h
    dsimp only at h
    split at h
    · obtain ⟨rfl, -⟩ := Prod.mk.inj (Option.some.inj h)
      trivial
    · cases h
  · obtain ⟨⟨⟨way, key⟩, rest'⟩, -, h⟩ := Option.bind_eq_some_iff.1 h
    obtain ⟨⟨value, rest''⟩, hvalue, h⟩ := Option.bind_eq_some_iff.1 h
    obtain ⟨rfl, -⟩ := Prod.mk.inj (Option.some.inj h)
    exact (isDistinct_of_readValue fuel).1 _ _ _ _ hvalue

theorem isDistinct_of_readStatements {fuel : Nat} {cs : List Char} {statements : List Statement}
    (h : readStatements fuel cs = some statements) : ∀ s ∈ statements, s.IsDistinct := by
  induction fuel generalizing cs statements with
  | zero => cases h
  | succ fuel ih =>
    rw [readStatements] at h
    obtain ⟨cs', -, h⟩ := Option.bind_eq_some_iff.1 h
    split at h
    · obtain rfl := Option.some.inj h
      simp
    · obtain ⟨⟨s, rest⟩, hs, h⟩ := Option.bind_eq_some_iff.1 h
      dsimp only at h
      split at h
      · obtain ⟨later, hlater, h⟩ := Option.bind_eq_some_iff.1 h
        obtain rfl := Option.some.inj h
        exact List.forall_mem_cons.2 ⟨isDistinct_of_readStatement hs, ih hlater⟩
      · cases h

/-- The table of a document has each of its keys once, and so has every table in it. -/
theorem isDistinct_of_parse? {passage : Passage} {text : String} {t : Table}
    (h : parse? passage text = some t) : (Value.table t).IsDistinct := by
  obtain ⟨statements, hstatements, h⟩ := Option.bind_eq_some_iff.1 h
  exact isDistinct_of_assemble? (isDistinct_of_readStatements hstatements) h

end PathGuard.Toml
