import PathGuard.Proofs.Settings.Tree
import PathGuard.Settings.Load

/-!
# The order of keys

The keys of a layer come in no order of their own. If their paths part from one another, the order does
not matter: values are put at different places, and the trees that come out differ in the order of the
entries of their tables and in nothing that is read from them.

## Main definitions

- `KeyPath.parts`: paths that name different keys before either of them ends
- `Tree.IsParted`: layers whose keys part from one another
- `Tree.Alike`: trees that differ in the order of entries only

## Main results

- `Tree.Alike.put`, `Tree.put_put_alike`: values at paths that part are put in either order
- `Tree.Alike.addLayer_of_perm`: the keys of a layer come in any order
- `ofTree?_of_alike`, `ofLayers_of_perm`: the settings of trees and of layers
-/

namespace PathGuard.Settings

namespace KeyPath

/-- Whether two paths part: they name different keys before either of them ends. Different indices do not
    make paths part, since one may count from the start of a list and the other from its end. -/
def parts : KeyPath → KeyPath → Bool
  | .key key :: path, .key other :: path' => key != other || parts path path'
  | _, _ => false

theorem parts_symm {path path' : KeyPath} (h : path.parts path' = true) : path'.parts path = true := by
  fun_induction parts path path' with
  | case1 key path other path' ih =>
    rw [Bool.or_eq_true, bne_iff_ne] at h
    rw [parts, Bool.or_eq_true, bne_iff_ne]
    exact h.imp Ne.symm ih
  | case2 => cases h

end KeyPath

namespace Tree

/-- The keys of a layer part from one another. -/
def IsParted (layer : List (String × Tree)) : Prop :=
  layer.Pairwise fun entry other => (KeyPath.ofKey entry.1).parts (KeyPath.ofKey other.1) = true

instance : DecidablePred IsParted := fun _ => inferInstanceAs (Decidable (List.Pairwise ..))

theorem IsParted.of_perm {layer layer' : List (String × Tree)} (h : IsParted layer)
    (hperm : layer.Perm layer') : IsParted layer' :=
  hperm.pairwise h fun hparts => KeyPath.parts_symm hparts

/-- In two orders a layer has the same keys, which still part from one another. -/
theorem IsParted.arrange {layer : List (String × Tree)} (h : IsParted layer) (order order' : KeyOrder) :
    (order.arrange layer).Perm (order'.arrange layer) ∧ IsParted (order.arrange layer) :=
  ⟨(order.arrange_perm layer).trans (order'.arrange_perm layer).symm,
    h.of_perm (order.arrange_perm layer).symm⟩

/-- Trees that differ in the order of the entries of their tables only. -/
inductive Alike : Tree → Tree → Prop
  | refl (t : Tree) : Alike t t
  | table {entries entries' : List (String × Tree)}
      (hkeys : (entries.map Prod.fst).Perm (entries'.map Prod.fst))
      (hbelow : ∀ name v v', entries.lookup name = some v → entries'.lookup name = some v' → Alike v v') :
      Alike (table entries) (table entries')

section Alike

variable {t u v w : Tree} {entries entries' : List (String × Tree)}

/-- With the same keys, tables have something under a name both or neither. -/
theorem lookup_cases_of_perm (h : (entries.map Prod.fst).Perm (entries'.map Prod.fst)) (name : String) :
    entries.lookup name = none ∧ entries'.lookup name = none ∨
      ∃ v v', entries.lookup name = some v ∧ entries'.lookup name = some v' := by
  have hnone : entries.lookup name = none ↔ entries'.lookup name = none := by
    rw [Record.lookup_eq_none_iff, Record.lookup_eq_none_iff, h.mem_iff]
  cases hv : entries.lookup name with
  | none => exact .inl ⟨rfl, hnone.1 hv⟩
  | some v =>
    cases hv' : entries'.lookup name with
    | none =>
      rw [hnone.2 hv'] at hv
      cases hv
    | some v' => exact .inr ⟨v, v', rfl, rfl⟩

theorem Alike.trans (h : Alike t u) (h' : Alike u v) : Alike t v := by
  induction h generalizing v with
  | refl t => exact h'
  | table hkeys hbelow ih =>
    cases h' with
    | refl _ => exact .table hkeys hbelow
    | table hkeys' hbelow' =>
      refine .table (hkeys.trans hkeys') fun name x z hx hz => ?_
      rcases lookup_cases_of_perm hkeys name with ⟨hnone, -⟩ | ⟨-, y, -, hy⟩
      · rw [hx] at hnone
        cases hnone
      · exact ih name x y hx hy (hbelow' name y z hy hz)

theorem Alike.entries_keys (h : Alike t u) : (t.entries.map Prod.fst).Perm (u.entries.map Prod.fst) := by
  cases h with
  | refl t => exact .refl _
  | table hkeys _ => exact hkeys

/-- What trees that are alike have under a key is alike, where nothing stands for what is missing. -/
theorem Alike.lookup_getD (h : Alike t u) (name : String) :
    Alike ((t.entries.lookup name).getD nothing) ((u.entries.lookup name).getD nothing) := by
  cases h with
  | refl t => exact .refl _
  | @table entries entries' hkeys hbelow =>
    rw [Tree.entries, Tree.entries]
    rcases lookup_cases_of_perm hkeys name with ⟨hv, hv'⟩ | ⟨v, v', hv, hv'⟩
    · rw [hv, hv']
      exact .refl _
    · rw [hv, hv']
      exact hbelow name v v' hv hv'

/-! ### Changing the value of a key -/

/-- Changes that do the same to values that are alike do the same to tables that are. -/
theorem alike_updateKey (h : Alike (table entries) (table entries')) (key : String)
    {change : Tree → Tree} (hchange : ∀ {v v'}, Alike v v' → Alike (change v) (change v')) :
    Alike (table (updateKey key change entries)) (table (updateKey key change entries')) := by
  have hkeys : (entries.map Prod.fst).Perm (entries'.map Prod.fst) := h.entries_keys
  refine .table ?_ fun name v v' hv hv' => ?_
  · rw [keys_updateKey, keys_updateKey]
    by_cases hmem : key ∈ entries.map Prod.fst
    · rwa [if_pos hmem, if_pos (hkeys.mem_iff.1 hmem)]
    · rw [if_neg hmem, if_neg fun h => hmem (hkeys.mem_iff.2 h)]
      exact hkeys.append_right _
  · rw [lookup_updateKey] at hv hv'
    by_cases hname : name = key
    · rw [if_pos hname, Option.some.injEq] at hv hv'
      exact hv ▸ hv' ▸ hchange (h.lookup_getD key)
    · rw [if_neg hname] at hv hv'
      have hbelow := h.lookup_getD name
      rwa [Tree.entries, Tree.entries, hv, hv'] at hbelow

theorem perm_keys_updateKey (key other : String) (change change' : Tree → Tree)
    (entries : List (String × Tree)) :
    ((updateKey other change' (updateKey key change entries)).map Prod.fst).Perm
      ((updateKey key change (updateKey other change' entries)).map Prod.fst) := by
  simp only [keys_updateKey]
  split_ifs <;> grind

/-- Values of one key are changed one after the other. -/
theorem alike_updateKey_same (key : String) {change change' : Tree → Tree}
    (h : ∀ v, Alike (change' (change v)) (change (change' v))) (entries : List (String × Tree)) :
    Alike (table (updateKey key change' (updateKey key change entries)))
      (table (updateKey key change (updateKey key change' entries))) := by
  refine .table (perm_keys_updateKey ..) fun name v v' hv hv' => ?_
  rw [lookup_updateKey, lookup_updateKey, if_pos rfl, lookup_updateKey, Option.getD_some] at hv
  rw [lookup_updateKey, lookup_updateKey, if_pos rfl, lookup_updateKey, Option.getD_some] at hv'
  by_cases hname : name = key
  · rw [if_pos hname, Option.some.injEq] at hv hv'
    exact hv ▸ hv' ▸ h _
  · rw [if_neg hname, if_neg hname] at hv hv'
    exact Option.some.inj (hv.symm.trans hv') ▸ .refl _

/-- Values of different keys are changed in either order. -/
theorem alike_updateKey_of_ne {key other : String} (h : key ≠ other) (change change' : Tree → Tree)
    (entries : List (String × Tree)) :
    Alike (table (updateKey other change' (updateKey key change entries)))
      (table (updateKey key change (updateKey other change' entries))) := by
  refine .table (perm_keys_updateKey ..) fun name v v' hv hv' => ?_
  have hsame : (updateKey other change' (updateKey key change entries)).lookup name =
      (updateKey key change (updateKey other change' entries)).lookup name := by
    simp only [lookup_updateKey, if_neg h, if_neg (Ne.symm h)]
    by_cases hkey : name = key
    · rw [if_pos hkey, if_pos hkey, if_neg (hkey ▸ h)]
    · rw [if_neg hkey, if_neg hkey]
  exact Option.some.inj ((hv.symm.trans hsame).trans hv') ▸ .refl _

/-! ### Putting values -/

theorem Alike.table_entries (h : Alike t u) : Alike (.table t.entries) (.table u.entries) := by
  cases h with
  | refl t => exact .refl _
  | table hkeys hbelow => exact .table hkeys hbelow

-- What is merged goes down its own tables and the trees side by side, so both are followed at once.
mutual

/-- What is merged into trees that are alike leaves them alike. -/
theorem merge_alike : ∀ (v : Tree) {old old' : Tree}, Alike old old' →
    Alike (merge old v) (merge old' v)
  | table later, _, _, h => by
    rw [merge_table, merge_table]
    exact mergeEntries_alike later h.table_entries
  | nothing, _, _, _ | boolean _, _, _, _ | integer _, _, _, _ | float _, _, _, _ | text _, _, _, _
  | list _, _, _, _ => .refl _

theorem mergeEntries_alike : ∀ (later : List (String × Tree)) {old old' : List (String × Tree)},
    Alike (table old) (table old') →
      Alike (table (mergeEntries old later)) (table (mergeEntries old' later))
  | [], _, _, h => by rwa [mergeEntries, mergeEntries]
  | (key, v) :: later, _, _, h => by
    rw [mergeEntries, mergeEntries]
    exact mergeEntries_alike later (alike_updateKey h key fun hbelow => merge_alike v hbelow)

end

theorem Alike.put (h : Alike t u) (path : KeyPath) (v : Tree) : Alike (t.put path v) (u.put path v) := by
  induction path generalizing t u with
  | nil => exact merge_alike v h
  | cons step path ih =>
    cases step with
    | key key =>
      rw [put_key, put_key]
      exact alike_updateKey h.table_entries key ih
    | index n =>
      have hitems : t.items = u.items := by
        cases h with
        | refl t => rfl
        | table => rfl
      rw [Tree.put, Tree.put, update, update, hitems]
      exact .refl _

/-- Values at paths that part are put in either order. -/
theorem put_put_alike {path path' : KeyPath} (h : path.parts path' = true) (t v w : Tree) :
    Alike ((t.put path v).put path' w) ((t.put path' w).put path v) := by
  fun_induction KeyPath.parts path path' generalizing t with
  | case1 key path other path' ih =>
    rw [put_key, put_key, put_key, put_key]
    by_cases hkey : key = other
    · subst hkey
      exact alike_updateKey_same key (ih (by simpa using h)) _
    · exact alike_updateKey_of_ne hkey _ _ _
  | case2 => cases h

/-! ### Layers -/

variable {layer layer' : List (String × Tree)}

theorem Alike.addLayer (h : Alike t u) (layer : List (String × Tree)) :
    Alike (t.addLayer layer) (u.addLayer layer) := by
  induction layer generalizing t u with
  | nil => exact h
  | cons entry layer ih => exact ih (h.put _ _)

/-- If the keys of a layer part from one another, they come in any order. -/
theorem Alike.addLayer_of_perm (hperm : layer.Perm layer') (hparted : IsParted layer) (h : Alike t u) :
    Alike (t.addLayer layer) (u.addLayer layer') := by
  induction hperm generalizing t u with
  | nil => exact h
  | cons entry _ ih =>
    exact ih (List.pairwise_cons.1 hparted).2 (h.put _ _)
  | swap entry other layer =>
    have hparts := (List.pairwise_cons.1 hparted).1 entry List.mem_cons_self
    have hswap := put_put_alike hparts t other.2 entry.2
    exact (hswap.trans ((h.put _ _).put _ _)).addLayer layer
  | trans hfirst _ ih ih' =>
    exact (ih hparted h).trans (ih' (hparted.of_perm hfirst) (.refl _))

/-! ### Reading values -/

theorem Alike.readOr_eq {β : Type} (h : Alike (.table entries) (.table entries'))
    {read : Tree → Option β} (hread : ∀ {v v'}, Alike v v' → read v = read v') (name : String)
    (default : β) :
    Record.readOr entries name read default = Record.readOr entries' name read default := by
  cases h with
  | refl _ => rfl
  | table hkeys hbelow =>
    rw [Record.readOr, Record.readOr]
    rcases lookup_cases_of_perm hkeys name with ⟨hv, hv'⟩ | ⟨v, v', hv, hv'⟩
    · rw [hv, hv']
    · rw [hv, hv']
      exact hread (hbelow name v v' hv hv')

/-- Trees that are alike give a section the same fields, in whatever order, or none. -/
theorem Alike.section?_cases (h : Alike t u) (names : List String) :
    t.section? names = none ∧ u.section? names = none ∨
      ∃ fields fields', t.section? names = some fields ∧ u.section? names = some fields' ∧
        Alike (.table fields) (.table fields') := by
  cases h with
  | refl t =>
    cases hsection : t.section? names with
    | none => exact .inl ⟨rfl, rfl⟩
    | some fields => exact .inr ⟨fields, fields, rfl, rfl, .refl _⟩
  | table hkeys hbelow => exact .inr ⟨_, _, rfl, rfl, .table hkeys hbelow⟩

theorem Alike.toBool?_eq (h : Alike t u) : t.toBool? = u.toBool? := by
  cases h <;> rfl

theorem Alike.toText?_eq (h : Alike t u) : t.toText? = u.toText? := by
  cases h <;> rfl

/-- Tables with the same keys have the same only key, if they have only one. -/
theorem Alike.toVariant?_eq (h : Alike t u) : t.toVariant? = u.toVariant? := by
  cases h with
  | refl t => rfl
  | @table entries entries' hkeys hbelow =>
    match entries, entries', hkeys.length_eq with
    | [], [], _ => rfl
    | [(name, _)], [(name', _)], _ => exact congrArg some (List.singleton_perm_singleton.1 hkeys)
    | _ :: _ :: _, _ :: _ :: _, _ => rfl

end Alike

end Tree

/-! ### Reading settings -/

section Reading

variable {t u : Tree} (h : t.Alike u)

include h

theorem format?_of_alike : format? t = format? u := by
  rw [format?, format?, h.toVariant?_eq]

theorem features?_of_alike : features? t = features? u := by
  rw [features?, features?]
  rcases h.section?_cases [enforcedKey] with ⟨ht, hu⟩ | ⟨fields, fields', ht, hu, hfields⟩
  · rw [ht, hu]
  · rw [ht, hu]
    exact hfields.readOr_eq Tree.Alike.toBool?_eq ..

theorem logging?_of_alike : logging? t = logging? u := by
  rw [logging?, logging?]
  rcases h.section?_cases [levelKey, formatKey] with ⟨ht, hu⟩ | ⟨fields, fields', ht, hu, hfields⟩
  · rw [ht, hu]
  · rw [ht, hu]
    simp only [Option.bind_eq_bind, Option.bind_some]
    rw [hfields.readOr_eq Tree.Alike.toText?_eq, hfields.readOr_eq format?_of_alike]

/-- Trees that are alike give the same settings. -/
theorem ofTree?_of_alike : ofTree? t = ofTree? u := by
  simp only [ofTree?]
  rw [h.table_entries.readOr_eq features?_of_alike, h.table_entries.readOr_eq logging?_of_alike]

end Reading

theorem foldl_addLayer_alike {layers layers' : List (List (String × Tree))}
    (h : List.Forall₂ (fun layer layer' => layer.Perm layer' ∧ Tree.IsParted layer) layers layers')
    {t u : Tree} (halike : t.Alike u) :
    (layers.foldl Tree.addLayer t).Alike (layers'.foldl Tree.addLayer u) := by
  induction h generalizing t u with
  | nil => exact halike
  | cons hlayer _ ih => exact ih (halike.addLayer_of_perm hlayer.1 hlayer.2)

/-- If in each layer the keys part from one another, they come in any order. -/
theorem ofLayers_of_perm {layers layers' : List (List (String × Tree))}
    (h : List.Forall₂ (fun layer layer' => layer.Perm layer' ∧ Tree.IsParted layer) layers layers') :
    ofLayers layers = ofLayers layers' := by
  rw [ofLayers, ofLayers, ofTree?_of_alike (foldl_addLayer_alike h (.refl _))]

end PathGuard.Settings
