import PathGuard.Proofs.Path.Directory

/-!
# Canonical spellings

The segments that cleaning keeps are steps to the parent followed by names, and at the root names
alone. They lead to the same place as the segments they were kept from, and two such lists that lead
to the same place from every directory are equal. So the canonical spelling of a path stands for what
the path means, no more and no less.

## Main definitions

- `IsReduced`: steps to the parent followed by names

## Main results

- `push_spec`: what one more segment does to the kept ones
- `reduce_isReduced`, `walk_reduce`: the shape of the kept segments and where they lead
- `foldl_segments_cleanChars`: a canonical spelling is read as the segments that were kept
- `clean_eq_clean_iff_resolve`: two paths are cleaned alike exactly when they mean the same
-/

namespace PathGuard.Path

/-- Steps to the parent followed by names; on the way from the root there are only names. -/
def IsReduced (rooted : Bool) (segs : List Segment) : Prop :=
  ∃ ups names, segs = List.replicate ups parent ++ names ∧ (∀ s ∈ names, IsName s) ∧
    (rooted = true → ups = 0)

theorem IsReduced.eq_parent_or_isName {rooted : Bool} {segs : List Segment}
    (h : IsReduced rooted segs) : ∀ s ∈ segs, s = parent ∨ IsName s := by
  obtain ⟨ups, names, rfl, hnames, -⟩ := h
  intro s hs
  exact (List.mem_append.1 hs).imp List.eq_of_mem_replicate (hnames s)

theorem IsReduced.ne_nil_and_slash_notMem {rooted : Bool} {segs : List Segment}
    (h : IsReduced rooted segs) : ∀ s ∈ segs, s ≠ [] ∧ '/' ∉ s := by
  intro s hs
  rcases h.eq_parent_or_isName s hs with rfl | hname
  · decide
  · exact ⟨hname.1, hname.2.1⟩

theorem IsReduced.slash_notMem {rooted : Bool} {segs : List Segment}
    (h : IsReduced rooted segs) : ∀ s ∈ segs, '/' ∉ s :=
  fun s hs => (h.ne_nil_and_slash_notMem s hs).2

theorem push_skip {s : Segment} (rooted : Bool) (kept : List Segment) (hs : s = [] ∨ s = here) :
    push rooted kept s = kept := by
  simp [push, hs]

theorem push_nil (rooted : Bool) (kept : List Segment) : push rooted kept [] = kept :=
  push_skip rooted kept (.inl rfl)

theorem push_here (rooted : Bool) (kept : List Segment) : push rooted kept here = kept :=
  push_skip rooted kept (.inr rfl)

theorem push_name {s : Segment} (rooted : Bool) (kept : List Segment) (hs : IsName s) :
    push rooted kept s = s :: kept := by
  simp [push, hs.1, hs.2.2.1, hs.2.2.2]

theorem push_parent_nil (rooted : Bool) :
    push rooted [] parent = if rooted then [] else [parent] := by
  simp [push, parent, here]

theorem push_parent_parent (rooted : Bool) (kept : List Segment) :
    push rooted (parent :: kept) parent = parent :: parent :: kept := by
  simp [push, parent, here]

theorem push_parent_name {s : Segment} (rooted : Bool) (kept : List Segment) (hs : IsName s) :
    push rooted (s :: kept) parent = kept := by
  have hne : s ≠ ['.', '.'] := hs.2.2.2
  simp [push, parent, here, hne]

theorem segment_cases {s : Segment} (hs : '/' ∉ s) : (s = [] ∨ s = here) ∨ s = parent ∨ IsName s := by
  by_cases hskip : s = [] ∨ s = here
  · exact .inl hskip
  · rw [not_or] at hskip
    by_cases hup : s = parent
    · exact .inr (.inl hup)
    · exact .inr (.inr ⟨hskip.1, hs, hskip.2, hup⟩)

/-- Taking one segment in keeps the list reduced, and the list then leads where it led before with
    the segment entered from there. -/
theorem push_spec {rooted : Bool} {kept : List Segment} {s : Segment}
    (hkept : IsReduced rooted kept.reverse) (hs : '/' ∉ s) :
    IsReduced rooted (push rooted kept s).reverse ∧
      ∀ names, (rooted = true → names = []) →
        walk names (push rooted kept s).reverse = enter (walk names kept.reverse) s := by
  obtain ⟨ups, after, hrev, hafter, hups⟩ := hkept
  rcases segment_cases hs with hskip | rfl | hname
  · rw [push_skip rooted kept hskip]
    refine ⟨⟨ups, after, hrev, hafter, hups⟩, fun names _ => ?_⟩
    rcases hskip with rfl | rfl <;> simp
  · rcases List.eq_nil_or_concat' after with rfl | ⟨before, last, rfl⟩
    · -- no name is kept, so the step to the parent stays, unless the way begins at the root
      have hkept : kept = List.replicate ups parent := by
        rw [← List.reverse_reverse kept, hrev]
        simp
      subst hkept
      cases ups with
      | zero =>
        rw [List.replicate_zero, push_parent_nil]
        cases rooted with
        | false => exact ⟨⟨1, [], rfl, by simp, by simp⟩, fun names _ => by simp⟩
        | true =>
          refine ⟨⟨0, [], rfl, by simp, fun _ => rfl⟩, fun names hnames => ?_⟩
          simp [hnames rfl]
      | succ n =>
        rw [List.replicate_succ, push_parent_parent, ← List.replicate_succ, ← List.replicate_succ]
        refine ⟨⟨n + 2, [], by simp, by simp, fun h => absurd (hups h) (by omega)⟩,
          fun names _ => ?_⟩
        rw [List.reverse_replicate, List.reverse_replicate, List.replicate_succ', walk_concat]
    · have hlast : IsName last := hafter last (by simp)
      have hkept : kept = last :: (List.replicate ups parent ++ before).reverse := by
        rw [← List.reverse_reverse kept, hrev]
        simp
      subst hkept
      rw [push_parent_name rooted _ hlast, List.reverse_reverse]
      refine ⟨⟨ups, before, rfl, fun t ht => hafter t (by simp [ht]), hups⟩, fun names _ => ?_⟩
      rw [List.reverse_cons, List.reverse_reverse, walk_concat, enter_name _ hlast, enter_parent]
      simp
  · rw [push_name rooted kept hname, List.reverse_cons]
    refine ⟨⟨ups, after ++ [s], by simp [hrev], ?_, hups⟩, fun names _ => walk_concat _ _ _⟩
    intro t ht
    rcases List.mem_append.1 ht with ht | ht
    · exact hafter t ht
    · exact List.mem_singleton.1 ht ▸ hname

theorem foldl_push_spec {rooted : Bool} (kept : List Segment) {segs : List Segment}
    (hkept : IsReduced rooted kept.reverse) (hsegs : ∀ s ∈ segs, '/' ∉ s) :
    IsReduced rooted (segs.foldl (push rooted) kept).reverse ∧
      ∀ names, (rooted = true → names = []) →
        walk names (segs.foldl (push rooted) kept).reverse =
          walk (walk names kept.reverse) segs := by
  induction segs generalizing kept with
  | nil => exact ⟨hkept, fun names _ => rfl⟩
  | cons s segs ih =>
    obtain ⟨hpush, hwalk⟩ := push_spec hkept (hsegs s List.mem_cons_self)
    obtain ⟨hreduced, hleads⟩ := ih _ hpush fun t ht => hsegs t (List.mem_cons_of_mem s ht)
    refine ⟨hreduced, fun names hnames => ?_⟩
    rw [List.foldl_cons, hleads names hnames, hwalk names hnames, walk_cons]

theorem isReduced_nil (rooted : Bool) : IsReduced rooted [] :=
  ⟨0, [], rfl, by simp, fun _ => rfl⟩

theorem reduce_isReduced (rooted : Bool) {segs : List Segment} (hsegs : ∀ s ∈ segs, '/' ∉ s) :
    IsReduced rooted (reduce rooted segs) :=
  (foldl_push_spec [] (isReduced_nil rooted) hsegs).1

/-- What is kept of segments leads where they lead. From the root this holds of rooted ones only for
    the root itself. -/
theorem walk_reduce {rooted : Bool} {names segs : List Segment} (hsegs : ∀ s ∈ segs, '/' ∉ s)
    (hnames : rooted = true → names = []) : walk names (reduce rooted segs) = walk names segs :=
  (foldl_push_spec [] (isReduced_nil rooted) hsegs).2 names hnames

theorem walk_replicate_append {after : List Segment} (names : List Segment) (ups : ℕ)
    (hafter : ∀ s ∈ after, IsName s) :
    walk names (List.replicate ups parent ++ after) = names.take (names.length - ups) ++ after := by
  rw [walk_append, walk_parents, walk_names _ hafter]

theorem cleanChars_eq (cs : List Char) :
    cleanChars cs =
      if isRooted cs then '/' :: unsegments (reduce (isRooted cs) (segments cs))
      else if reduce (isRooted cs) (segments cs) = [] then here
      else unsegments (reduce (isRooted cs) (segments cs)) := by
  simp only [cleanChars, List.isEmpty_iff]

theorem reduce_segments_isReduced (cs : List Char) :
    IsReduced (isRooted cs) (reduce (isRooted cs) (segments cs)) :=
  reduce_isReduced _ fun _ hs => slash_notMem_of_mem_segments hs

theorem isRooted_cleanChars (cs : List Char) : isRooted (cleanChars cs) = isRooted cs := by
  rw [cleanChars_eq]
  split
  · next h =>
    rw [h]
    rfl
  · next h =>
    have hkept := (reduce_segments_isReduced cs).ne_nil_and_slash_notMem
    rw [Bool.not_eq_true] at h
    split
    · rw [h]
      rfl
    · rw [isRooted_unsegments hkept, h]

section Skipping

variable {α : Type} {f : α → Segment → α}

/-- Whatever takes segments in and skips empty ones takes in those that were written. -/
theorem foldl_segments_unsegments (hnil : ∀ a, f a [] = a) (a : α) {segs : List Segment}
    (hslash : ∀ s ∈ segs, '/' ∉ s) : (segments (unsegments segs)).foldl f a = segs.foldl f a := by
  by_cases hsegs : segs = []
  · subst hsegs
    exact hnil a
  · rw [segments_unsegments hslash hsegs]

/-- Whatever takes segments in and skips empty ones and `here` takes in, of a canonical spelling, those
    that were kept. -/
theorem foldl_segments_cleanChars (hnil : ∀ a, f a [] = a) (hhere : ∀ a, f a here = a) (a : α)
    (cs : List Char) :
    (segments (cleanChars cs)).foldl f a = (reduce (isRooted cs) (segments cs)).foldl f a := by
  have hslash := (reduce_segments_isReduced cs).slash_notMem
  rw [cleanChars_eq]
  split
  · have happend := segments_append_slash [] (unsegments (reduce (isRooted cs) (segments cs)))
    rw [List.nil_append] at happend
    rw [happend, List.foldl_append, foldl_segments_unsegments hnil _ hslash, segments,
      List.foldl_cons, List.foldl_nil, hnil]
  · split
    · next h =>
      rw [h]
      exact hhere a
    · exact foldl_segments_unsegments hnil a hslash

end Skipping

namespace Directory

/-- The directory that many names deep lead to. -/
def deep (n : ℕ) : Directory where
  names := List.replicate n ['a']
  isName s hs := by
    rw [List.eq_of_mem_replicate hs]
    decide

theorem resolve_clean (d : Directory) (path : String) : d.resolve (clean path) = d.resolve path := by
  apply ext_names
  rw [names_resolve, names_resolve, clean, String.toList_ofList, isRooted_cleanChars, walk,
    foldl_segments_cleanChars enter_nil enter_here]
  refine walk_reduce (fun _ hs => slash_notMem_of_mem_segments hs) fun h => ?_
  rw [if_pos h]

theorem names_resolve_of_reduce {path : String} {ups : ℕ} {after : List Segment} (d : Directory)
    (hkept : reduce (isRooted path.toList) (segments path.toList) =
      List.replicate ups parent ++ after) (hafter : ∀ s ∈ after, IsName s) :
    (d.resolve path).names =
      (if isRooted path.toList then [] else d.names.take (d.names.length - ups)) ++ after := by
  have hwalk : walk (if isRooted path.toList then [] else d.names) (segments path.toList) =
      walk (if isRooted path.toList then [] else d.names)
        (reduce (isRooted path.toList) (segments path.toList)) := by
    refine (walk_reduce (fun _ hs => slash_notMem_of_mem_segments hs) fun h => ?_).symm
    rw [if_pos h]
  rw [names_resolve, hwalk, hkept, walk_replicate_append _ ups hafter]
  split <;> simp

end Directory

/-- Paths that lead to the same place from the root and from a directory deep enough have the same
    canonical spelling: the root shows the names and the deep directory the steps to the parent. -/
theorem clean_eq_of_resolve_eq {p q : String}
    (h : ∀ d : Directory, d.resolve p = d.resolve q) : clean p = clean q := by
  obtain ⟨ups, after, hkept, hafter, hups⟩ := reduce_segments_isReduced p.toList
  obtain ⟨ups', after', hkept', hafter', hups'⟩ := reduce_segments_isReduced q.toList
  have hnames : after = after' := by
    have hroot := congrArg Directory.names (h .root)
    rw [Directory.names_resolve_of_reduce _ hkept hafter,
      Directory.names_resolve_of_reduce _ hkept' hafter'] at hroot
    simpa [Directory.root] using hroot
  have hlength := congrArg (fun d : Directory => d.names.length) (h (.deep (ups + ups' + 1)))
  simp only [Directory.names_resolve_of_reduce _ hkept hafter,
    Directory.names_resolve_of_reduce _ hkept' hafter', List.length_append, ← hnames] at hlength
  have hsame : isRooted p.toList = isRooted q.toList ∧ ups = ups' := by
    cases hp : isRooted p.toList <;> cases hq : isRooted q.toList <;>
      simp [hp, hq, Directory.deep] at hlength hups hups' ⊢ <;> omega
  rw [clean, clean, cleanChars_eq, cleanChars_eq, hkept, hkept', hsame.1, hsame.2, hnames]

/-- Two paths have the same canonical spelling exactly when they lead from every directory to the same
    place, and the canonical spelling leads where the path does. -/
theorem clean_eq_clean_iff_resolve (p q : String) :
    (clean p = clean q ↔ ∀ d : Directory, d.resolve p = d.resolve q) ∧
      ∀ d : Directory, d.resolve (clean p) = d.resolve p := by
  refine ⟨⟨fun h d => ?_, clean_eq_of_resolve_eq⟩, fun d => d.resolve_clean p⟩
  rw [← d.resolve_clean p, h, d.resolve_clean q]

end PathGuard.Path
