import PathGuard.Proofs.Path.Segments

/-!
# Directories

A directory is the list of names that lead to it from the root. A path is walked from a directory
segment by segment, and says the same as another path when the two lead from every directory to the
same one. This is what paths mean; nothing here is about how they are spelled.

## Main definitions

- `IsName`: segments that lead from a directory to something in it
- `Directory`: the names on the way from the root
- `walk`: following segments from a directory
- `Directory.resolve`: where a path leads from a directory
-/

namespace PathGuard.Path

/-- A segment that leads from a directory to something in it. -/
def IsName (s : Segment) : Prop :=
  s ≠ [] ∧ '/' ∉ s ∧ s ≠ here ∧ s ≠ parent

instance : DecidablePred IsName := fun s =>
  inferInstanceAs (Decidable (s ≠ [] ∧ '/' ∉ s ∧ s ≠ here ∧ s ≠ parent))

/-- Goes along one segment. Above the root there is only the root. -/
def enter (names : List Segment) (s : Segment) : List Segment :=
  if s = [] ∨ s = here then names
  else if s = parent then names.dropLast
  else names ++ [s]

def walk (names : List Segment) (segs : List Segment) : List Segment :=
  segs.foldl enter names

/-- A place in the tree of names. -/
structure Directory where
  /-- The names on the way from the root. -/
  names : List Segment
  isName : ∀ s ∈ names, IsName s

@[simp] theorem enter_name {s : Segment} (names : List Segment) (hs : IsName s) :
    enter names s = names ++ [s] := by
  simp [enter, hs.1, hs.2.2.1, hs.2.2.2]

@[simp] theorem enter_parent (names : List Segment) : enter names parent = names.dropLast := by
  simp [enter, parent, here]

@[simp] theorem enter_nil (names : List Segment) : enter names [] = names := by
  simp [enter]

@[simp] theorem enter_here (names : List Segment) : enter names here = names := by
  simp [enter]

@[simp] theorem walk_nil (names : List Segment) : walk names [] = names :=
  rfl

@[simp] theorem walk_cons (names : List Segment) (s : Segment) (segs : List Segment) :
    walk names (s :: segs) = walk (enter names s) segs :=
  rfl

theorem walk_append (names segs later : List Segment) :
    walk names (segs ++ later) = walk (walk names segs) later := by
  simp [walk, List.foldl_append]

theorem walk_concat (names segs : List Segment) (s : Segment) :
    walk names (segs ++ [s]) = enter (walk names segs) s := by
  rw [walk_append]
  rfl

theorem walk_names {segs : List Segment} (names : List Segment) (h : ∀ s ∈ segs, IsName s) :
    walk names segs = names ++ segs := by
  induction segs generalizing names with
  | nil => simp
  | cons s segs ih =>
    rw [walk_cons, enter_name names (h s List.mem_cons_self),
      ih _ fun t ht => h t (List.mem_cons_of_mem s ht)]
    simp

theorem walk_parents (names : List Segment) (n : ℕ) :
    walk names (List.replicate n parent) = names.take (names.length - n) := by
  induction n generalizing names with
  | zero => simp
  | succ n ih =>
    have hlen : names.length - 1 - n = names.length - (n + 1) := by omega
    rw [List.replicate_succ, walk_cons, enter_parent, ih, List.dropLast_eq_take, List.take_take,
      List.length_take_of_le (by omega), hlen]
    congr 1
    omega

theorem isName_of_mem_enter {names : List Segment} {s t : Segment}
    (hnames : ∀ n ∈ names, IsName n) (hs : '/' ∉ s) (ht : t ∈ enter names s) : IsName t := by
  unfold enter at ht
  split at ht
  · exact hnames t ht
  · next hstay =>
    split at ht
    · exact hnames t (List.dropLast_subset names ht)
    · next hup =>
      rcases List.mem_append.1 ht with ht | ht
      · exact hnames t ht
      · obtain rfl := List.mem_singleton.1 ht
        rw [not_or] at hstay
        exact ⟨hstay.1, hs, hstay.2, hup⟩

theorem isName_of_mem_walk {names segs : List Segment} (hnames : ∀ n ∈ names, IsName n)
    (hsegs : ∀ s ∈ segs, '/' ∉ s) : ∀ t ∈ walk names segs, IsName t := by
  induction segs generalizing names with
  | nil => exact hnames
  | cons s segs ih =>
    intro t ht
    refine ih (fun n hn => ?_) (fun u hu => hsegs u (List.mem_cons_of_mem s hu)) t ht
    exact isName_of_mem_enter hnames (hsegs s List.mem_cons_self) hn

namespace Directory

def root : Directory := ⟨[], by simp⟩

/-- Where a path leads from a directory. A rooted path leads to the same place from everywhere. -/
def resolve (d : Directory) (path : String) : Directory where
  names := walk (if isRooted path.toList then [] else d.names) (segments path.toList)
  isName := by
    refine isName_of_mem_walk ?_ fun s hs => slash_notMem_of_mem_segments hs
    split
    · simp
    · exact d.isName

theorem names_resolve (d : Directory) (path : String) :
    (d.resolve path).names =
      walk (if isRooted path.toList then [] else d.names) (segments path.toList) :=
  rfl

/-- The path that spells a directory from the root, without a slash in front. -/
def text (d : Directory) : String :=
  String.ofList (unsegments d.names)

theorem ext_names {d e : Directory} (h : d.names = e.names) : d = e := by
  cases d
  cases e
  simpa using h

theorem slash_notMem (d : Directory) : ∀ s ∈ d.names, '/' ∉ s :=
  fun s hs => (d.isName s hs).2.1

theorem segments_text {d : Directory} (hd : d.names ≠ []) : segments d.text.toList = d.names := by
  rw [text, String.toList_ofList]
  exact segments_unsegments d.slash_notMem hd

theorem isRooted_text (d : Directory) : isRooted d.text.toList = false := by
  rw [text, String.toList_ofList]
  exact isRooted_unsegments fun s hs => ⟨(d.isName s hs).1, d.slash_notMem s hs⟩

end Directory

end PathGuard.Path
