import PathGuard.Proofs.Record
import PathGuard.Settings.Tree

/-!
# Reading trees of settings

What a tree has at a place after a value has been put into it: what the value gives to the place, and
otherwise what was there before. A layer of which all keys that give a place anything give it the same
gives it that. This is so for places that no value of the layer covers over, by a table or a list where
the place has an end, or by anything but a table on the way.

## Main definitions

- `Tree.at?`: the value at a place
- `Tree.single`: the tree of one value at a path
- `Tree.IsOpenAt`: trees that cover nothing over on the way to a place
- `KeyPath.turnsOff`: paths that leave the way to a place

## Main results

- `Tree.at?_put`, `Tree.isOpenAt_put`: a place after one value has been put
- `Tree.at?_addLayer`, `Tree.isOpenAt_addLayer`: a place after a layer
-/

namespace PathGuard.Settings

namespace Tree

/-- The value at a place, which is told by the names on the way to it. -/
def at? : List String → Tree → Option Tree
  | [], t => some t
  | name :: names, t => (t.entries.lookup name).bind (at? names)

/-- The tree that has a value at a path and nothing else. -/
def single : KeyPath → Tree → Tree
  | [], v => v
  | .key name :: path, v => table [(name, single path v)]
  | .index n :: path, v => list (updateItem n (fun _ => single path v) [])

/-- Values that are neither tables nor lists. -/
def IsScalar : Tree → Prop
  | table _ => False
  | list _ => False
  | _ => True

/-- Trees that cover nothing over on the way to a place: the values on the way are tables with each key
    once, as far as there are any, and one at the place itself is neither a table nor a list. -/
def IsOpenAt : List String → Tree → Prop
  | [], t => t.IsScalar
  | name :: names, t =>
    ∃ entries, t = table entries ∧ (entries.map Prod.fst).Nodup ∧
      ∀ v, entries.lookup name = some v → v.IsOpenAt names

variable {t v old : Tree} {name : String} {names : List String}

@[simp] theorem at?_cons (name : String) (names : List String) (t : Tree) :
    t.at? (name :: names) = (t.entries.lookup name).bind (at? names) :=
  rfl

theorem isOpenAt_table_cons {entries : List (String × Tree)} :
    (table entries).IsOpenAt (name :: names) ↔ (entries.map Prod.fst).Nodup ∧
      ∀ v, entries.lookup name = some v → v.IsOpenAt names := by
  rw [IsOpenAt]
  constructor
  · rintro ⟨_, hentries, h⟩
    obtain rfl := Tree.table.inj hentries
    exact h
  · exact fun h => ⟨entries, rfl, h⟩

/-- Of a tree that is open at a place, or not there at all, the same holds below the first key. -/
theorem entries_of_isOpenAt (h : t = nothing ∨ t.IsOpenAt (name :: names)) :
    (t.entries.map Prod.fst).Nodup ∧ ∀ v, t.entries.lookup name = some v → v.IsOpenAt names := by
  rcases h with rfl | ⟨entries, rfl, h⟩
  · exact ⟨List.nodup_nil, by simp [entries]⟩
  · exact h

theorem getD_of_isOpenAt {before : Option Tree} (h : ∀ v, before = some v → v.IsOpenAt names) :
    before.getD nothing = nothing ∨ (before.getD nothing).IsOpenAt names := by
  cases before with
  | none => exact .inl rfl
  | some v => exact .inr (h v rfl)

/-- Where there was no tree, an empty one stands for it: at the end of the way the new value is there
    anyhow. -/
theorem at?_or_getD (v : Tree) (old : Option Tree) (names : List String) :
    (v.at? names).or ((old.getD nothing).at? names) =
      (v.at? names).or (old.bind (at? names)) := by
  cases names with
  | nil => rfl
  | cons name names => cases old <;> rfl

/-! ### Changing the value of a key -/

theorem lookup_updateKey (key name : String) (change : Tree → Tree) (entries : List (String × Tree)) :
    (updateKey key change entries).lookup name =
      if name = key then some (change ((entries.lookup key).getD nothing))
      else entries.lookup name := by
  induction entries with
  | nil =>
    rw [updateKey, Record.lookup_cons_ite]
    rfl
  | cons entry entries ih =>
    obtain ⟨k, old⟩ := entry
    rw [updateKey]
    by_cases hk : k = key
    · subst hk
      rw [if_pos rfl, Record.lookup_cons_ite, Record.lookup_cons_ite, Record.lookup_cons_ite, if_pos rfl]
      by_cases h : name = k
      · rw [if_pos h, if_pos h]
        rfl
      · rw [if_neg h, if_neg h, if_neg h]
    · rw [if_neg hk, Record.lookup_cons_ite, Record.lookup_cons_ite, Record.lookup_cons_ite, ih,
        if_neg (Ne.symm hk)]
      by_cases h : name = key
      · rw [if_neg (h ▸ Ne.symm hk), if_pos h, if_pos h]
      · rw [if_neg h, if_neg h]

theorem keys_updateKey (key : String) (change : Tree → Tree) (entries : List (String × Tree)) :
    (updateKey key change entries).map Prod.fst =
      if key ∈ entries.map Prod.fst then entries.map Prod.fst else entries.map Prod.fst ++ [key] := by
  induction entries with
  | nil => simp [updateKey]
  | cons entry entries ih =>
    obtain ⟨k, old⟩ := entry
    rw [updateKey]
    split
    · next h => simp [h]
    · next h =>
      rw [List.map_cons, ih, List.map_cons]
      simp only [List.mem_cons, Ne.symm h, false_or]
      split <;> rfl

theorem nodup_keys_updateKey {entries : List (String × Tree)} (h : (entries.map Prod.fst).Nodup)
    (key : String) (change : Tree → Tree) :
    ((updateKey key change entries).map Prod.fst).Nodup := by
  rw [keys_updateKey]
  split
  · exact h
  · next hnew =>
    rw [← List.concat_eq_append]
    exact h.concat hnew

/-! ### Merging -/

theorem merge_table (old : Tree) (entries : List (String × Tree)) :
    merge old (table entries) = table (mergeEntries old.entries entries) := by
  rw [merge]

theorem merge_of_isScalar (old : Tree) (h : v.IsScalar) : merge old v = v := by
  cases v with
  | table entries => exact h.elim
  | _ => rfl

theorem lookup_mergeEntries {entries : List (String × Tree)} (h : (entries.map Prod.fst).Nodup)
    (old : List (String × Tree)) (name : String) :
    (mergeEntries old entries).lookup name =
      ((entries.lookup name).map fun v => merge ((old.lookup name).getD nothing) v).or
        (old.lookup name) := by
  induction entries generalizing old with
  | nil =>
    rw [mergeEntries]
    rfl
  | cons entry entries ih =>
    obtain ⟨key, value⟩ := entry
    obtain ⟨hkey, hnodup⟩ := List.nodup_cons.1 h
    rw [mergeEntries, ih hnodup, lookup_updateKey, Record.lookup_cons_ite]
    by_cases hname : name = key
    · subst hname
      rw [Record.lookup_eq_none_iff.2 hkey, if_pos rfl, if_pos rfl]
      rfl
    · rw [if_neg hname, if_neg hname]

theorem nodup_keys_mergeEntries {old : List (String × Tree)} (h : (old.map Prod.fst).Nodup)
    (entries : List (String × Tree)) : ((mergeEntries old entries).map Prod.fst).Nodup := by
  induction entries generalizing old with
  | nil => rwa [mergeEntries]
  | cons entry entries ih =>
    rw [mergeEntries]
    exact ih (nodup_keys_updateKey h _ _)

/-- What a tree has at a place after a value has been merged into it. -/
theorem at?_merge (h : v.IsOpenAt names) (old : Tree) :
    (merge old v).at? names = (v.at? names).or (old.at? names) := by
  induction names generalizing v old with
  | nil =>
    rw [merge_of_isScalar old h]
    rfl
  | cons name names ih =>
    obtain ⟨entries, rfl, hnodup, hbelow⟩ := h
    rw [merge_table, at?_cons, at?_cons, at?_cons, Tree.entries, Tree.entries,
      lookup_mergeEntries hnodup]
    cases hv : entries.lookup name with
    | none => rfl
    | some below => exact (ih (hbelow below hv) _).trans (at?_or_getD ..)

/-- A tree that is open at a place, or not there at all, stays open under values that are. -/
theorem isOpenAt_merge (h : v.IsOpenAt names) (hold : old = nothing ∨ old.IsOpenAt names) :
    (merge old v).IsOpenAt names := by
  induction names generalizing v old with
  | nil => rwa [merge_of_isScalar old h]
  | cons name names ih =>
    obtain ⟨entries, rfl, hnodup, hbelow⟩ := h
    obtain ⟨holdKeys, holdBelow⟩ := entries_of_isOpenAt hold
    rw [merge_table, isOpenAt_table_cons]
    refine ⟨nodup_keys_mergeEntries holdKeys _, fun v hv => ?_⟩
    rw [lookup_mergeEntries hnodup] at hv
    cases hnew : entries.lookup name with
    | none => exact holdBelow v (by simpa [hnew] using hv)
    | some below =>
      obtain rfl : merge ((old.entries.lookup name).getD nothing) below = v := by
        simpa [hnew] using hv
      exact ih (hbelow below hnew) (getD_of_isOpenAt holdBelow)

/-! ### Putting a value at a path -/

variable {path : KeyPath}

/-- Below the first key of a path a value is put along the rest of it. -/
theorem isOpenAt_single_key {key : String} :
    (single (.key key :: path) v).IsOpenAt (name :: names) ↔
      (name = key → (single path v).IsOpenAt names) := by
  rw [single, isOpenAt_table_cons, Record.lookup_cons_ite]
  by_cases h : name = key
  · simp [h]
  · simp [h]

theorem put_key (t : Tree) (key : String) (path : KeyPath) (v : Tree) :
    t.put (.key key :: path) v = table (updateKey key (fun below => below.put path v) t.entries) := by
  rw [put, update]
  rfl

theorem at?_single_key (key : String) (path : KeyPath) (v : Tree) :
    (single (.key key :: path) v).at? (name :: names) =
      if name = key then (single path v).at? names else none := by
  rw [single, at?_cons, entries, Record.lookup_cons_ite]
  by_cases h : name = key
  · simp [h]
  · simp [h]

/-- What is put along a path covers a place over unless the path begins with a key on the way. -/
theorem exists_of_isOpenAt_single {step : KeyStep} (h : (single (step :: path) v).IsOpenAt names) :
    ∃ key name below, step = .key key ∧ names = name :: below ∧
      (name = key → (single path v).IsOpenAt below) := by
  cases names with
  | nil => cases step <;> exact h.elim
  | cons name below =>
    cases step with
    | index n =>
      obtain ⟨entries, hentries, -⟩ := h
      cases hentries
    | key key => exact ⟨key, name, below, rfl, rfl, isOpenAt_single_key.1 h⟩

/-- What a tree has at a place after a value has been put at a path. -/
theorem at?_put (h : (single path v).IsOpenAt names) (t : Tree) :
    (t.put path v).at? names = ((single path v).at? names).or (t.at? names) := by
  induction path generalizing t names with
  | nil => exact at?_merge h t
  | cons step path ih =>
    obtain ⟨key, name, below, rfl, rfl, hbelow⟩ := exists_of_isOpenAt_single h
    rw [at?_single_key, put_key, at?_cons, at?_cons, entries, lookup_updateKey]
    by_cases hkey : name = key
    · rw [if_pos hkey, if_pos hkey, hkey]
      exact (ih (hbelow hkey) _).trans (at?_or_getD ..)
    · rw [if_neg hkey, if_neg hkey]
      rfl

theorem isOpenAt_put (h : (single path v).IsOpenAt names) (ht : t = nothing ∨ t.IsOpenAt names) :
    (t.put path v).IsOpenAt names := by
  induction path generalizing t names with
  | nil => exact isOpenAt_merge h ht
  | cons step path ih =>
    obtain ⟨key, name, below, rfl, rfl, hbelow⟩ := exists_of_isOpenAt_single h
    obtain ⟨hkeys, hold⟩ := entries_of_isOpenAt ht
    rw [put_key, isOpenAt_table_cons]
    refine ⟨nodup_keys_updateKey hkeys _ _, fun w hw => ?_⟩
    rw [lookup_updateKey] at hw
    by_cases hkey : name = key
    · rw [if_pos hkey, Option.some.injEq] at hw
      subst hkey hw
      exact ih (hbelow rfl) (getD_of_isOpenAt hold)
    · rw [if_neg hkey] at hw
      exact hold w hw

/-! ### Layers -/

/-- The tree that one key of a layer writes. -/
def ofEntry (entry : String × Tree) : Tree :=
  single (KeyPath.ofKey entry.1) entry.2

/-- What a tree has at a place after a layer: what the last key gives to the place that gives anything. -/
theorem at?_addLayer {layer : List (String × Tree)}
    (h : ∀ entry ∈ layer, (ofEntry entry).IsOpenAt names) (t : Tree) :
    (t.addLayer layer).at? names =
      (layer.reverse.findSome? fun entry => (ofEntry entry).at? names).or (t.at? names) := by
  induction layer generalizing t with
  | nil => rfl
  | cons entry layer ih =>
    obtain ⟨hentry, hlayer⟩ := List.forall_mem_cons.1 h
    have hstep : (t.addLayer (entry :: layer)) =
        (t.put (KeyPath.ofKey entry.1) entry.2).addLayer layer := rfl
    rw [hstep, ih hlayer, at?_put hentry, List.reverse_cons, List.findSome?_append, Option.or_assoc]
    congr 2
    exact (List.findSome?_singleton ..).symm

/-- If all keys of a layer that give a place anything give it the same, it does not matter which of them
    comes last. -/
theorem at?_addLayer_of_unique {layer : List (String × Tree)}
    (h : ∀ entry ∈ layer, (ofEntry entry).IsOpenAt names) {given : Option Tree}
    (hgiven : ∀ v, (∃ entry ∈ layer, (ofEntry entry).at? names = some v) ↔ given = some v) (t : Tree) :
    (t.addLayer layer).at? names = given.or (t.at? names) := by
  have hlast : (layer.reverse.findSome? fun entry => (ofEntry entry).at? names) = given := by
    cases hfound : layer.reverse.findSome? fun entry => (ofEntry entry).at? names with
    | none =>
      rw [List.findSome?_eq_none_iff] at hfound
      refine (Option.eq_none_iff_forall_ne_some.2 fun v hv => ?_).symm
      obtain ⟨entry, hentry, hat⟩ := (hgiven v).2 hv
      rw [hfound entry (List.mem_reverse.2 hentry)] at hat
      cases hat
    | some v =>
      obtain ⟨entry, hentry, hat⟩ := List.exists_of_findSome?_eq_some hfound
      exact ((hgiven v).1 ⟨entry, List.mem_reverse.1 hentry, hat⟩).symm
  rw [at?_addLayer h, hlast]

theorem isOpenAt_addLayer {layer : List (String × Tree)}
    (h : ∀ entry ∈ layer, (ofEntry entry).IsOpenAt names) (ht : t.IsOpenAt names) :
    (t.addLayer layer).IsOpenAt names := by
  induction layer generalizing t with
  | nil => exact ht
  | cons entry layer ih =>
    obtain ⟨hentry, hlayer⟩ := List.forall_mem_cons.1 h
    exact ih hlayer (isOpenAt_put hentry (.inr ht))

end Tree

namespace KeyPath

/-- Whether a path leaves the way to a place: it names another key before either of them ends. -/
def turnsOff : KeyPath → List String → Bool
  | .key key :: path, name :: names => key != name || turnsOff path names
  | _, _ => false

variable {path : KeyPath} {names : List String}

theorem isOpenAt_of_turnsOff (h : path.turnsOff names = true) (v : Tree) :
    (Tree.single path v).IsOpenAt names := by
  fun_induction turnsOff path names with
  | case1 key path name names ih =>
    rw [Tree.isOpenAt_single_key]
    rintro rfl
    exact ih (by simpa using h)
  | case2 => cases h

theorem at?_of_turnsOff (h : path.turnsOff names = true) (v : Tree) :
    (Tree.single path v).at? names = none := by
  fun_induction turnsOff path names with
  | case1 key path name names ih =>
    rw [Tree.at?_single_key]
    by_cases hkey : name = key
    · rw [if_pos hkey]
      exact ih (by simpa [hkey] using h)
    · exact if_neg hkey
  | case2 => cases h

end KeyPath

end PathGuard.Settings
