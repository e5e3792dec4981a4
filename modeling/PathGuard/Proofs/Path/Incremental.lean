import PathGuard.Proofs.Path.FixedPoint

/-!
# Joining piece by piece

The elements of a path may be joined a few at a time, and what is written last may be cleaned before it
is joined: the segments that cleaning keeps of a text are taken in, after any others, as the segments
of the text itself would be. Empty elements make no difference, and nothing comes only of them.

## Main results

- `foldl_push_reduce`: kept segments are taken in as those that they were kept from
- `cleanChars_append_slash`, `cleanChars_append_cleanChars`: either side of a slash may be cleaned first
- `join_append`, `join_clean`: the same for joined paths
- `join_incremental`: joining is incremental
-/

namespace PathGuard.Path

/-! ### Cleaning one side of a slash -/

/-- One segment more is taken in after those that are kept, or into them before they are. -/
theorem foldl_push_push {kept : List Segment} {s : Segment} (rooted : Bool) (below : List Segment)
    (hkept : IsReduced false kept.reverse) (hs : '/' ∉ s) :
    (push false kept s).reverse.foldl (push rooted) below =
      push rooted (kept.reverse.foldl (push rooted) below) s := by
  have hconcat : (s :: kept).reverse.foldl (push rooted) below =
      push rooted (kept.reverse.foldl (push rooted) below) s := by
    rw [List.reverse_cons, List.foldl_append, List.foldl_cons, List.foldl_nil]
  rcases segment_cases hs with hskip | rfl | hname
  · rw [push_skip false kept hskip, push_skip rooted _ hskip]
  · cases kept with
    | nil => exact hconcat
    | cons last kept =>
      by_cases hlast : last = parent
      · rw [hlast] at hconcat ⊢
        rw [push_parent_parent]
        exact hconcat
      · -- a name is removed, whether it was taken in already or not
        have hname : IsName last := (hkept.eq_parent_or_isName last (by simp)).resolve_left hlast
        rw [push_parent_name false kept hname, List.reverse_cons, List.foldl_append,
          List.foldl_cons, List.foldl_nil, push_name rooted _ hname,
          push_parent_name rooted _ hname]
  · rw [push_name false kept hname]
    exact hconcat

theorem foldl_push_foldl_push {kept segs : List Segment} (rooted : Bool) (below : List Segment)
    (hkept : IsReduced false kept.reverse) (hsegs : ∀ s ∈ segs, '/' ∉ s) :
    (segs.foldl (push false) kept).reverse.foldl (push rooted) below =
      segs.foldl (push rooted) (kept.reverse.foldl (push rooted) below) := by
  induction segs generalizing kept with
  | nil => rfl
  | cons s segs ih =>
    have hs := hsegs s List.mem_cons_self
    rw [List.foldl_cons, ih (push_spec hkept hs).1 fun t ht => hsegs t (List.mem_cons_of_mem s ht),
      foldl_push_push rooted below hkept hs, List.foldl_cons]

/-- What is kept of segments is taken in, after any others, as the segments themselves are. -/
theorem foldl_push_reduce (rooted : Bool) (below : List Segment) {segs : List Segment}
    (hsegs : ∀ s ∈ segs, '/' ∉ s) :
    (reduce false segs).foldl (push rooted) below = segs.foldl (push rooted) below :=
  foldl_push_foldl_push rooted below (isReduced_nil false) hsegs

theorem isRooted_append {cs : List Char} (hcs : cs ≠ []) (ds : List Char) :
    isRooted (cs ++ ds) = isRooted cs := by
  obtain ⟨c, cs, rfl⟩ := List.exists_cons_of_ne_nil hcs
  rfl

theorem cleanChars_ne_nil (cs : List Char) : cleanChars cs ≠ [] := by
  have hkept := (reduce_segments_isReduced cs).ne_nil_and_slash_notMem
  rw [cleanChars_eq]
  split
  · exact List.cons_ne_nil _ _
  · split
    · exact List.cons_ne_nil _ _
    · next hne => exact unsegments_ne_nil hne fun s hs => (hkept s hs).1

theorem reduce_append (rooted : Bool) (segs later : List Segment) :
    reduce rooted (segs ++ later) =
      (later.foldl (push rooted) (segs.foldl (push rooted) [])).reverse := by
  rw [reduce, List.foldl_append]

theorem ofList_cleanChars_ne_empty (cs : List Char) : String.ofList (cleanChars cs) ≠ "" := by
  rw [ne_eq, ← String.toList_eq_nil_iff, String.toList_ofList]
  exact cleanChars_ne_nil cs

theorem clean_ne_empty (path : String) : clean path ≠ "" :=
  ofList_cleanChars_ne_empty path.toList

/-- What is written before a slash may be cleaned first. -/
theorem cleanChars_append_slash {cs : List Char} (hcs : cs ≠ []) (ds : List Char) :
    cleanChars (cleanChars cs ++ '/' :: ds) = cleanChars (cs ++ '/' :: ds) := by
  have hrooted : isRooted (cs ++ '/' :: ds) = isRooted cs := isRooted_append hcs _
  refine cleanChars_congr ?_ ?_
  · rw [isRooted_append (cleanChars_ne_nil cs), isRooted_cleanChars, hrooted]
  · have hkept := List.reverse_injective (reduce_segments_cleanChars cs)
    rw [hrooted, segments_append_slash, segments_append_slash, reduce_append, reduce_append, hkept]

/-- What is written after a slash may be cleaned first, unless that makes it rooted. -/
theorem cleanChars_append_cleanChars (cs : List Char) {ds : List Char} (hds : isRooted ds = false) :
    cleanChars (cs ++ '/' :: cleanChars ds) = cleanChars (cs ++ '/' :: ds) := by
  have hrooted : isRooted (cs ++ '/' :: cleanChars ds) = isRooted (cs ++ '/' :: ds) := by
    cases cs <;> rfl
  refine cleanChars_congr hrooted ?_
  generalize isRooted (cs ++ '/' :: ds) = rooted
  rw [segments_append_slash, segments_append_slash, reduce_append, reduce_append,
    foldl_segments_cleanChars (push_nil _) (push_here _), hds,
    foldl_push_reduce rooted _ fun _ hs => slash_notMem_of_mem_segments hs]

/-! ### Joining some elements first -/

/-- The elements that leave something in a joined path. -/
def parts (elements : List String) : List String :=
  elements.filter (· ≠ "")

/-- The text that is cleaned when elements are joined. -/
def written (elements : List String) : List Char :=
  unsegments ((parts elements).map String.toList)

theorem parts_append (xs ys : List String) : parts (xs ++ ys) = parts xs ++ parts ys :=
  List.filter_append xs ys

theorem parts_append_ne_nil {xs : List String} (h : parts xs ≠ []) (ys : List String) :
    parts (xs ++ ys) ≠ [] := by
  rw [parts_append]
  exact List.append_ne_nil_of_left_ne_nil h _

theorem parts_singleton {x : String} (hx : x ≠ "") : parts [x] = [x] := by
  simp [parts, hx]

theorem parts_eq_nil_iff {xs : List String} : parts xs = [] ↔ ∀ x ∈ xs, x = "" := by
  simp [parts]

theorem written_singleton {x : String} (hx : x ≠ "") : written [x] = x.toList := by
  rw [written, parts_singleton hx, List.map_singleton, unsegments, List.intercalate_singleton]

theorem written_append {xs ys : List String} (hxs : parts xs ≠ []) (hys : parts ys ≠ []) :
    written (xs ++ ys) = written xs ++ '/' :: written ys := by
  rw [written, parts_append, List.map_append]
  exact unsegments_append (by simpa using hxs) (by simpa using hys)

theorem written_ne_nil {xs : List String} (h : parts xs ≠ []) : written xs ≠ [] := by
  obtain ⟨x, hx⟩ := List.exists_mem_of_ne_nil _ h
  have hne : x.toList ≠ [] := by
    have hx : x ∈ xs ∧ x ≠ "" := by simpa [parts] using hx
    exact fun h => hx.2 (String.toList_eq_nil_iff.1 h)
  obtain ⟨c, hc⟩ := List.exists_mem_of_ne_nil _ hne
  exact List.ne_nil_of_mem (mem_unsegments (List.mem_map_of_mem hx) hc)

theorem join_congr {xs ys : List String} (h : parts xs = parts ys) : join xs = join ys := by
  have hfilter : xs.filter (· ≠ "") = ys.filter (· ≠ "") := h
  rw [join, join, hfilter]

theorem join_of_parts_eq_nil {xs : List String} (h : parts xs = []) : join xs = "" := by
  have hnothing : join xs = join [] := join_congr h
  exact hnothing

theorem join_of_parts_ne_nil {xs : List String} (h : parts xs ≠ []) :
    join xs = String.ofList (cleanChars (written xs)) := by
  obtain ⟨p, ps, hps⟩ := List.exists_cons_of_ne_nil h
  have hfilter : xs.filter (· ≠ "") = p :: ps := hps
  rw [join, hfilter, written, hps]

theorem join_singleton {x : String} (hx : x ≠ "") : join [x] = clean x := by
  have hparts : parts [x] ≠ [] := by simp [parts_singleton hx]
  rw [join_of_parts_ne_nil hparts, written_singleton hx, clean]

theorem join_pair {x y : String} (hx : x ≠ "") (hy : y ≠ "") :
    join [x, y] = String.ofList (cleanChars (x.toList ++ '/' :: y.toList)) := by
  have hxs : parts [x] ≠ [] := by simp [parts_singleton hx]
  have hys : parts [y] ≠ [] := by simp [parts_singleton hy]
  rw [← written_singleton hx, ← written_singleton hy, ← written_append hxs hys,
    ← join_of_parts_ne_nil (parts_append_ne_nil hxs [y]), List.singleton_append]

/-- Nothing is joined just when there is nothing to join. -/
theorem join_eq_empty_iff (xs : List String) : join xs = "" ↔ ∀ x ∈ xs, x = "" := by
  rw [← parts_eq_nil_iff]
  refine ⟨fun h => ?_, join_of_parts_eq_nil⟩
  by_contra hne
  rw [join_of_parts_ne_nil hne] at h
  exact ofList_cleanChars_ne_empty _ h

/-- What comes first may be joined first. -/
theorem join_append (xs ys : List String) : join (xs ++ ys) = join ([join xs] ++ ys) := by
  by_cases hxs : parts xs = []
  · refine join_congr ?_
    rw [join_of_parts_eq_nil hxs, parts_append, parts_append, hxs]
    rfl
  · have hne : join xs ≠ "" := fun h => hxs (parts_eq_nil_iff.2 ((join_eq_empty_iff xs).1 h))
    have hfirst : parts [join xs] ≠ [] := by simp [parts_singleton hne]
    have hwritten : written [join xs] = cleanChars (written xs) := by
      rw [written_singleton hne, join_of_parts_ne_nil hxs, String.toList_ofList]
    rw [join_of_parts_ne_nil (parts_append_ne_nil hxs ys),
      join_of_parts_ne_nil (parts_append_ne_nil hfirst ys)]
    congr 1
    by_cases hys : parts ys = []
    · have hall : written (xs ++ ys) = written xs := by simp [written, parts_append, hys]
      have hall' : written ([join xs] ++ ys) = written [join xs] := by
        simp only [written, parts_append, hys, List.append_nil]
      rw [hall, hall', hwritten, cleanChars_cleanChars]
    · rw [written_append hxs hys, written_append hfirst hys, hwritten,
        cleanChars_append_slash (written_ne_nil hxs)]

/-- What comes last may be cleaned first, unless it is rooted. -/
theorem join_clean (x : String) {y : String} (hy : y ≠ "") (hrooted : isRooted y.toList = false) :
    join [x, y] = join [x, clean y] := by
  by_cases hx : x = ""
  · have hempty : ∀ z, join [x, z] = join [z] := fun z => join_congr (by simp [parts, hx])
    rw [hempty, hempty, join_singleton hy, join_singleton (clean_ne_empty y),
      clean_eq_self (isCanonical_clean y)]
  · rw [join_pair hx hy, join_pair hx (clean_ne_empty y), clean, String.toList_ofList,
      cleanChars_append_cleanChars _ hrooted]

/-- Elements may be joined a few at a time from the left, and the last may be cleaned first unless it is
    rooted. Empty elements make no difference, and nothing comes of them alone. -/
theorem join_incremental :
    (∀ xs ys, join (xs ++ ys) = join ([join xs] ++ ys)) ∧
    (∀ x y, y ≠ "" → isRooted y.toList = false → join [x, y] = join [x, clean y]) ∧
    (∀ xs ys : List String, xs.filter (· ≠ "") = ys.filter (· ≠ "") → join xs = join ys) ∧
    (∀ xs, join xs = "" ↔ ∀ x ∈ xs, x = "") :=
  ⟨join_append, fun x _ hy hrooted => join_clean x hy hrooted, fun _ _ h => join_congr h,
    join_eq_empty_iff⟩

theorem join_incremental_sources :
    join ["r/src/..", "../lib//a/.."] = join ["r/src/..", "../lib"] ∧
      join ["", "r", "", "", "src"] = join ["r", "src", ""] := by
  have hclean : clean "../lib//a/.." = "../lib" := by decide
  rw [← hclean]
  exact ⟨join_incremental.2.1 _ _ (by decide) (by decide),
    join_incremental.2.2.1 _ _ (by decide)⟩

end PathGuard.Path
