import Mathlib.Data.List.Nodup
import PathGuard.Record

/-!
# Looking up names

Lists of values with names, as records, tables and environments are: what a name has, and what is found
among values of which those of one name matter alone.
-/

namespace PathGuard.Record

variable {α β : Type} {entries : Record α} {name : String}

theorem lookup_cons_ite (key : String) (v : α) (entries : Record α) (name : String) :
    ((key, v) :: entries).lookup name = if name = key then some v else entries.lookup name := by
  by_cases h : name = key
  · rw [h, List.lookup_cons_self, if_pos rfl]
  · rw [List.lookup_cons, beq_eq_false_iff_ne.2 h, if_neg h]

theorem lookup_eq_none_iff : entries.lookup name = none ↔ name ∉ entries.map Prod.fst := by
  rw [List.lookup_eq_none_iff, ← List.forall_mem_ne, List.forall_mem_map]
  simp only [bne_iff_ne]

theorem lookup_of_mem (hnodup : (entries.map Prod.fst).Nodup) {v : α} (h : (name, v) ∈ entries) :
    entries.lookup name = some v := by
  obtain ⟨before, after, rfl⟩ := List.append_of_mem h
  refine List.lookup_eq_some_iff.2 ⟨before, after, rfl, fun entry hentry => ?_⟩
  rw [List.map_append, List.nodup_append] at hnodup
  rw [bne_iff_ne]
  exact (hnodup.2.2 _ (List.mem_map_of_mem hentry) _ (by simp)).symm

theorem mem_of_lookup {v : α} (h : entries.lookup name = some v) : (name, v) ∈ entries := by
  obtain ⟨before, after, rfl, -⟩ := List.lookup_eq_some_iff.1 h
  exact List.mem_append_right _ List.mem_cons_self

/-- Where names are different and the values of one name matter alone, what is found is found there. -/
theorem exists_mem_eq_some_iff (hnodup : (entries.map Prod.fst).Nodup) {f : String × α → Option β}
    (hother : ∀ entry ∈ entries, entry.1 ≠ name → f entry = none) (b : β) :
    (∃ entry ∈ entries, f entry = some b) ↔
      ((entries.lookup name).bind fun v => f (name, v)) = some b := by
  constructor
  · rintro ⟨⟨key, v⟩, hentry, hb⟩
    have hkey : key = name := by
      by_contra h
      exact Option.some_ne_none b (hb.symm.trans (hother _ hentry h))
    subst hkey
    rwa [lookup_of_mem hnodup hentry]
  · intro h
    obtain ⟨v, hv, hb⟩ := Option.bind_eq_some_iff.1 h
    exact ⟨(name, v), mem_of_lookup hv, hb⟩

end PathGuard.Record
