import Mathlib.Data.List.Basic
import PathGuard.Path

/-!
# Segments and their spelling

Splitting a text at its slashes and writing segments between slashes undo each other, as long as no
segment holds a slash and there is a segment to write.

## Main results

- `segments_unsegments`: segments that are written are found again
- `segments_append_slash`: a slash separates the segments before it from those after it
- `unsegments_isPrefix_iff`: one text continues another after a slash when its segments do
-/

namespace PathGuard.Path

theorem segments_eq_splitOn (cs : List Char) : segments cs = cs.splitOn '/' := by
  induction cs with
  | nil => rfl
  | cons c cs ih =>
    rw [List.splitOn_cons_eq_if_modifyHead, segments, ih]
    by_cases hc : c = '/'
    · simp [hc]
    · obtain ⟨seg, segs, hsegs⟩ := List.exists_cons_of_ne_nil (List.splitOn_ne_nil '/' cs)
      simp [hc, hsegs]

theorem segments_unsegments {segs : List Segment} (hslash : ∀ s ∈ segs, '/' ∉ s)
    (hne : segs ≠ []) : segments (unsegments segs) = segs := by
  rw [segments_eq_splitOn, unsegments]
  exact List.splitOn_intercalate '/' hslash hne

theorem segments_append_slash (cs ds : List Char) :
    segments (cs ++ '/' :: ds) = segments cs ++ segments ds := by
  simp only [segments_eq_splitOn]
  exact List.splitOn_append_cons_self cs ds

theorem slash_notMem_of_mem_segments {cs : List Char} {s : Segment} (hs : s ∈ segments cs) :
    '/' ∉ s := by
  induction cs generalizing s with
  | nil =>
    have : s = [] := by simpa [segments] using hs
    simp [this]
  | cons c cs ih =>
    obtain ⟨seg, segs, hsegs⟩ := List.exists_cons_of_ne_nil (segments_ne_nil cs)
    rw [hsegs] at ih
    simp only [segments, hsegs] at hs
    split at hs
    · rcases List.mem_cons.1 hs with rfl | hs
      · exact List.not_mem_nil
      · exact ih hs
    · next hc =>
      rcases List.mem_cons.1 hs with rfl | hs
      · have hseg := ih List.mem_cons_self
        simp only [List.headD_cons, List.mem_cons, not_or]
        exact ⟨fun h => hc h.symm, hseg⟩
      · exact ih (List.mem_cons_of_mem _ hs)

theorem unsegments_append {segs later : List Segment} (hsegs : segs ≠ []) (hlater : later ≠ []) :
    unsegments (segs ++ later) = unsegments segs ++ '/' :: unsegments later := by
  induction segs with
  | nil => exact absurd rfl hsegs
  | cons s segs ih =>
    by_cases h : segs = []
    · subst h
      simp [unsegments, List.intercalate_cons_of_ne_nil hlater]
    · have hne : segs ++ later ≠ [] := by simp [h]
      simp only [unsegments] at ih
      simp [unsegments, List.intercalate_cons_of_ne_nil hne, List.intercalate_cons_of_ne_nil h,
        ih h]

theorem mem_unsegments {segs : List Segment} {s : Segment} {c : Char} (hs : s ∈ segs) (hc : c ∈ s) :
    c ∈ unsegments segs := by
  induction segs with
  | nil => cases hs
  | cons t segs ih =>
    rw [List.mem_cons] at hs
    cases segs with
    | nil =>
      obtain rfl : s = t := by simpa using hs
      rwa [unsegments, List.intercalate_singleton]
    | cons u segs =>
      rw [unsegments, List.intercalate_cons_cons, List.append_assoc, List.mem_append]
      rcases hs with rfl | hs
      · exact .inl hc
      · exact .inr (List.mem_cons_of_mem _ (ih hs))

theorem unsegments_ne_nil {segs : List Segment} (hne : segs ≠ []) (h : ∀ s ∈ segs, s ≠ []) :
    unsegments segs ≠ [] := by
  obtain ⟨s, segs, rfl⟩ := List.exists_cons_of_ne_nil hne
  obtain ⟨c, s, rfl⟩ := List.exists_cons_of_ne_nil (h s List.mem_cons_self)
  exact List.ne_nil_of_mem (mem_unsegments List.mem_cons_self List.mem_cons_self)

/-- What is written of segments begins with other segments and a slash exactly when those segments
    come first and are not all. -/
theorem unsegments_isPrefix_iff {dir segs : List Segment} (hdir : dir ≠ [])
    (hdirSlash : ∀ s ∈ dir, '/' ∉ s) (hslash : ∀ s ∈ segs, '/' ∉ s) :
    unsegments dir ++ ['/'] <+: unsegments segs ↔ ∃ rest, rest ≠ [] ∧ segs = dir ++ rest := by
  constructor
  · rintro ⟨cs, hcs⟩
    have hsegs : segs ≠ [] := by
      rintro rfl
      simp [unsegments] at hcs
    refine ⟨segments cs, segments_ne_nil cs, ?_⟩
    rw [← segments_unsegments hslash hsegs, ← hcs, List.append_assoc, List.singleton_append,
      segments_append_slash, segments_unsegments hdirSlash hdir]
  · rintro ⟨rest, hrest, rfl⟩
    rw [unsegments_append hdir hrest]
    exact ⟨unsegments rest, by simp⟩

theorem isRooted_unsegments {segs : List Segment}
    (h : ∀ s ∈ segs, s ≠ [] ∧ '/' ∉ s) : isRooted (unsegments segs) = false := by
  cases segs with
  | nil => rfl
  | cons s segs =>
    obtain ⟨hne, hslash⟩ := h s List.mem_cons_self
    obtain ⟨c, s, rfl⟩ := List.exists_cons_of_ne_nil hne
    have hc : c ≠ '/' := fun hc => hslash (hc ▸ List.mem_cons_self)
    simp [unsegments, isRooted, hc]

end PathGuard.Path
