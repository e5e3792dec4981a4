import PathGuard.Proofs.Path.Incremental

/-!
# Paths below a directory

The path of a repository and a path in it are written one after the other and cleaned as one. As long
as the steps to the parent do not use up the names of the repository, what remains is where the second
path leads from the repository, and so begins with the first of its names.

## Main definitions

- `Directory.Above`: a spelling that continues the one of a directory
- `LeavesRoot`: paths that use up all names of a directory on their way

## Main results

- `toList_join_text`: what a directory and a path are joined to
- `reduce_names_append`: what is kept as long as the path stays below the first name
- `Directory.head?_eq_of_above_join`: what lies above the joined path shares its first name then
-/

namespace PathGuard.Path

/-- Whether a path goes up, at some point of its way, through all names of a directory. -/
def LeavesRoot (names : List Segment) (path : String) : Prop :=
  ∃ before, before <+: segments path.toList ∧ walk names before = []

theorem cleanChars_of_not_rooted {cs : List Char} (h : isRooted cs = false) :
    cleanChars cs =
      if reduce false (segments cs) = [] then here else unsegments (reduce false (segments cs)) := by
  rw [cleanChars_eq, h]
  simp

theorem push_reverse {names : List Segment} {s : Segment} (hnames : ∀ n ∈ names, IsName n)
    (hne : names ≠ []) (hs : '/' ∉ s) : push false names.reverse s = (enter names s).reverse := by
  rcases segment_cases hs with hskip | rfl | hname
  · rw [push_skip _ _ hskip]
    rcases hskip with rfl | rfl <;> simp
  · obtain ⟨before, last, rfl⟩ := List.eq_nil_or_concat' names |>.resolve_left hne
    rw [enter_parent, List.reverse_append, List.reverse_singleton, List.singleton_append,
      push_parent_name _ _ (hnames last (by simp))]
    simp
  · rw [push_name _ _ hname, enter_name _ hname]
    simp

/-- Segments that never use up the names they start from are taken in as they are walked. -/
theorem foldl_push_reverse {names segs : List Segment} (hnames : ∀ n ∈ names, IsName n)
    (hsegs : ∀ s ∈ segs, '/' ∉ s) (hstay : ∀ before, before <+: segs → walk names before ≠ []) :
    segs.foldl (push false) names.reverse = (walk names segs).reverse := by
  -- the induction is for all names: what a segment leaves of them is not used up by the rest
  induction segs generalizing names with
  | nil => rfl
  | cons s segs ih =>
    have hs := hsegs s List.mem_cons_self
    rw [List.foldl_cons, push_reverse hnames (hstay [] List.nil_prefix) hs, walk_cons]
    refine ih (fun n hn => isName_of_mem_enter hnames hs hn)
      (fun t ht => hsegs t (List.mem_cons_of_mem s ht)) fun before hbefore => ?_
    exact hstay (s :: before) (List.cons_prefix_cons.2 ⟨rfl, hbefore⟩)

theorem reduce_names_append {names segs : List Segment} (hnames : ∀ n ∈ names, IsName n)
    (hsegs : ∀ s ∈ segs, '/' ∉ s) (hstay : ∀ before, before <+: segs → walk names before ≠ []) :
    reduce false (names ++ segs) = walk names segs := by
  rw [reduce, List.foldl_append, foldl_push_names false [] hnames, List.append_nil,
    foldl_push_reverse hnames hsegs hstay, List.reverse_reverse]

theorem head?_enter {names : List Segment} {s : Segment} (hne : names ≠ [])
    (hstay : enter names s ≠ []) : (enter names s).head? = names.head? := by
  obtain ⟨n, names, rfl⟩ := List.exists_cons_of_ne_nil hne
  unfold enter at hstay ⊢
  split
  · rfl
  · next hskip =>
    rw [if_neg hskip] at hstay
    split
    · next hup =>
      rw [if_pos hup] at hstay
      cases names with
      | nil => exact absurd rfl hstay
      | cons m names => rfl
    · rfl

theorem head?_walk {names segs : List Segment}
    (hstay : ∀ before, before <+: segs → walk names before ≠ []) :
    (walk names segs).head? = names.head? := by
  induction segs generalizing names with
  | nil => rfl
  | cons s segs ih =>
    have hhead : (enter names s).head? = names.head? :=
      head?_enter (hstay [] List.nil_prefix)
        (hstay [s] (List.cons_prefix_cons.2 ⟨rfl, List.nil_prefix⟩))
    rw [walk_cons, ih fun before hbefore => ?_, hhead]
    exact hstay (s :: before) (List.cons_prefix_cons.2 ⟨rfl, hbefore⟩)

namespace Directory

/-- Whether a path is spelled as one of a directory: it begins with the directory and a slash. -/
def Above (d : Directory) (path : String) : Prop :=
  d.text.toList ++ ['/'] <+: path.toList

instance (d : Directory) (path : String) : Decidable (d.Above path) :=
  inferInstanceAs (Decidable (_ <+: _))

theorem text_ne_empty {d : Directory} (hd : d.names ≠ []) : d.text ≠ "" := by
  intro h
  have hsegs := segments_text hd
  rw [h] at hsegs
  have hnil : ([] : Segment) ∈ d.names := by
    rw [← hsegs]
    exact List.mem_cons_self
  exact (d.isName [] hnil).1 rfl

end Directory

theorem toList_join_text {d : Directory} (hd : d.names ≠ []) (path : String) :
    (join [d.text, path]).toList =
      if reduce false (d.names ++ segments path.toList) = [] then here
      else unsegments (reduce false (d.names ++ segments path.toList)) := by
  have htext := d.text_ne_empty hd
  have hrooted := d.isRooted_text
  by_cases hpath : path = ""
  · -- the one segment of the empty path is skipped
    have hreduce : reduce false (d.names ++ segments "".toList) = reduce false d.names := by
      have hsegs : segments "".toList = [[]] := rfl
      rw [hsegs, reduce_append, List.foldl_cons, List.foldl_nil, push_nil]
      rfl
    have hjoin : join [d.text, ""] = join [d.text] := join_congr rfl
    rw [hpath, hreduce, hjoin, join_singleton htext, clean, String.toList_ofList,
      cleanChars_of_not_rooted hrooted, Directory.segments_text hd]
  · have hne : d.text.toList ≠ [] := fun h => htext (String.toList_eq_nil_iff.1 h)
    rw [join_pair htext hpath, String.toList_ofList,
      cleanChars_of_not_rooted (by rw [isRooted_append hne, hrooted]), segments_append_slash,
      Directory.segments_text hd]

namespace Directory

/-- A directory is above a joined path when its names come first in what is kept, and are not all. -/
theorem above_join_iff {d e : Directory} (hd : d.names ≠ []) (he : e.names ≠ []) (path : String) :
    e.Above (join [d.text, path]) ↔
      ∃ rest, rest ≠ [] ∧ reduce false (d.names ++ segments path.toList) = e.names ++ rest := by
  have hslash : ∀ s ∈ d.names ++ segments path.toList, '/' ∉ s := by
    intro s hs
    rcases List.mem_append.1 hs with hs | hs
    · exact d.slash_notMem s hs
    · exact slash_notMem_of_mem_segments hs
  have hkept := (reduce_isReduced false hslash).slash_notMem
  rw [Above, toList_join_text hd, text, String.toList_ofList,
    ← unsegments_isPrefix_iff he e.slash_notMem hkept]
  split
  · next hnil =>
    have hlong : ¬ unsegments e.names ++ ['/'] <+: here := by
      rintro ⟨rest, hrest⟩
      have hmem : '/' ∈ here := by
        rw [← hrest]
        simp
      exact absurd hmem (by decide)
    have hempty : ¬ unsegments e.names ++ ['/'] <+: unsegments ([] : List Segment) := by
      simp [unsegments]
    rw [hnil]
    exact iff_of_false hlong hempty
  · rfl

/-- What lies above a joined path begins with the same name as the directory, unless the path leaves
    that name on its way. -/
theorem head?_eq_of_above_join {d e : Directory} (hd : d.names ≠ []) (he : e.names ≠ [])
    {path : String} (hpath : ¬ LeavesRoot d.names path) (h : e.Above (join [d.text, path])) :
    e.names.head? = d.names.head? := by
  have hstay : ∀ before, before <+: segments path.toList → walk d.names before ≠ [] :=
    fun before hbefore hnil => hpath ⟨before, hbefore, hnil⟩
  obtain ⟨rest, -, hkept⟩ := (above_join_iff hd he path).1 h
  rw [reduce_names_append d.isName (fun s hs => slash_notMem_of_mem_segments hs) hstay] at hkept
  have hhead := head?_walk hstay
  rw [hkept] at hhead
  rw [← hhead, List.head?_append_of_ne_nil _ he]

end Directory

end PathGuard.Path
