import Mathlib.Data.List.Infix
import PathGuard.Proofs.Path.Join

/-!
# Paths that stay inside

A path stays inside the directory it is followed from if it never takes more steps to the parent than it
has entered names on its way. What is kept of its segments is then the same whatever they are taken in
on top of, so that the path is spelled below every directory as it is spelled alone. A path that does
not stay inside shows it: its own spelling begins with a step to the parent.

## Main definitions

- `StaysWithin`: segments that lead up by no more than a given number of names
- `StaysInside`: paths that never lead above where they begin
- `continuation`: the spelling of a path as it is written after a directory

## Main results

- `foldl_push_cases`: what is kept of such segments does not depend on what lies below it
- `parent_mem_reduce_iff`: of all others a step to the parent is kept
- `staysInside_join`: the joined path, and what tells that a path does not stay inside
-/

namespace PathGuard.Path

/-- Segments whose steps to the parent never outnumber the names among them by more than `room`. -/
def StaysWithin (room : ℕ) (segs : List Segment) : Prop :=
  ∀ before, before <+: segs → before.count parent ≤ room + before.countP (IsName ·)

/-- Paths on whose way there are never more steps to the parent than names. -/
def StaysInside (path : String) : Prop :=
  ∀ before, before <+: segments path.toList → before.count parent ≤ before.countP (IsName ·)

instance : DecidablePred StaysInside := fun path =>
  decidable_of_iff (∀ before ∈ (segments path.toList).inits,
    before.count parent ≤ before.countP (IsName ·)) (by simp only [List.mem_inits, StaysInside])

/-- What is written of a path after a directory and a slash: its canonical spelling without a slash in
    front, and nothing for `here`. -/
def continuation (path : String) : String :=
  let spelled := (join [path]).toList
  let bare := if isRooted spelled then spelled.tail else spelled
  if bare = here then "" else String.ofList bare

/-! ### Segments -/

section Segments

variable {room : ℕ} {s : Segment} {segs : List Segment}

theorem staysWithin_nil (room : ℕ) : StaysWithin room [] := by
  intro before hbefore
  rw [List.prefix_nil.1 hbefore, List.count_nil]
  exact Nat.zero_le _

theorem staysWithin_cons_iff :
    StaysWithin room (s :: segs) ↔ ∀ before, before <+: segs →
      (s :: before).count parent ≤ room + (s :: before).countP (IsName ·) := by
  constructor
  · exact fun h before hbefore => h (s :: before) (List.cons_prefix_cons.2 ⟨rfl, hbefore⟩)
  · intro h before hbefore
    rcases List.prefix_cons_iff.1 hbefore with rfl | ⟨rest, rfl, hrest⟩
    · exact Nat.zero_le _
    · exact h rest hrest

theorem staysWithin_skip_iff (hs : s = [] ∨ s = here) :
    StaysWithin room (s :: segs) ↔ StaysWithin room segs := by
  have hname : ¬ IsName s := by rcases hs with rfl | rfl <;> decide
  have hup : s ≠ parent := by rcases hs with rfl | rfl <;> decide
  rw [staysWithin_cons_iff, StaysWithin]
  simp [hname, List.count_cons_of_ne hup]

theorem staysWithin_name_iff (hs : IsName s) :
    StaysWithin room (s :: segs) ↔ StaysWithin (room + 1) segs := by
  rw [staysWithin_cons_iff, StaysWithin]
  simp [hs, List.count_cons_of_ne hs.2.2.2, Nat.add_assoc, Nat.add_comm 1]

theorem staysWithin_parent_iff :
    StaysWithin (room + 1) (parent :: segs) ↔ StaysWithin room segs := by
  have hname : ¬ IsName parent := by decide
  rw [staysWithin_cons_iff, StaysWithin]
  simp [hname, Nat.add_right_comm room 1]

theorem not_staysWithin_zero_parent : ¬ StaysWithin 0 (parent :: segs) := by
  intro h
  have hfirst := h [parent] (List.cons_prefix_cons.2 ⟨rfl, List.nil_prefix⟩)
  exact absurd hfirst (by decide)

/-- A step to the parent that is kept stays. -/
theorem parent_mem_push {kept : List Segment} (s : Segment) (h : parent ∈ kept) :
    parent ∈ push false kept s := by
  unfold push
  split
  · exact h
  · split
    · cases kept with
      | nil => cases h
      | cons last kept =>
        dsimp only
        split
        · exact List.mem_cons_self
        · next hlast => exact (List.mem_cons.1 h).resolve_left (Ne.symm hlast)
    · exact List.mem_cons_of_mem s h

theorem parent_mem_foldl_push {kept : List Segment} (segs : List Segment) (h : parent ∈ kept) :
    parent ∈ segs.foldl (push false) kept := by
  induction segs generalizing kept with
  | nil => exact h
  | cons s segs ih => exact ih (parent_mem_push s h)

/-- Taken in on top of some names, segments either lead up by no more than these, and then leave what
    lies below the names untouched and put names on top of it, or they lead up by more, and then a step
    to the parent is kept where nothing lies below. -/
theorem foldl_push_cases {kept : List Segment} (hkept : ∀ n ∈ kept, IsName n)
    (hsegs : ∀ s ∈ segs, '/' ∉ s) :
    (StaysWithin kept.length segs ∧ ∃ names, (∀ n ∈ names, IsName n) ∧
        ∀ rooted below, segs.foldl (push rooted) (kept ++ below) = names ++ below) ∨
      ¬ StaysWithin kept.length segs ∧ parent ∈ segs.foldl (push false) kept := by
  -- the induction is for all kept names: a segment adds one, removes one or changes nothing
  induction segs generalizing kept with
  | nil => exact .inl ⟨staysWithin_nil _, kept, hkept, fun _ _ => rfl⟩
  | cons s segs ih =>
    have hlater : ∀ t ∈ segs, '/' ∉ t := fun t ht => hsegs t (List.mem_cons_of_mem s ht)
    rcases segment_cases (hsegs s List.mem_cons_self) with hskip | rfl | hname
    · simp only [List.foldl_cons, push_skip _ _ hskip, staysWithin_skip_iff hskip]
      exact ih hkept hlater
    · cases kept with
      | nil =>
        refine .inr ⟨not_staysWithin_zero_parent, parent_mem_foldl_push segs ?_⟩
        rw [push_parent_nil]
        exact List.mem_cons_self
      | cons last kept =>
        rw [List.forall_mem_cons] at hkept
        simp only [List.foldl_cons, List.cons_append, push_parent_name _ _ hkept.1,
          List.length_cons, staysWithin_parent_iff]
        exact ih hkept.2 hlater
    · simp only [List.foldl_cons, push_name _ _ hname, staysWithin_name_iff hname]
      exact ih (List.forall_mem_cons.2 ⟨hname, hkept⟩) hlater

theorem exists_foldl_push_of_staysWithin (hsegs : ∀ s ∈ segs, '/' ∉ s) (h : StaysWithin 0 segs) :
    ∃ names, (∀ n ∈ names, IsName n) ∧
      ∀ rooted below, segs.foldl (push rooted) below = names ++ below :=
  ((foldl_push_cases (List.forall_mem_nil _) hsegs).resolve_right fun hleaves => hleaves.1 h).2

theorem parent_mem_reduce_iff (hsegs : ∀ s ∈ segs, '/' ∉ s) :
    parent ∈ reduce false segs ↔ ¬ StaysWithin 0 segs := by
  rw [reduce, List.mem_reverse]
  constructor
  · intro hmem hstays
    obtain ⟨names, hnames, hfold⟩ := exists_foldl_push_of_staysWithin hsegs hstays
    rw [hfold, List.append_nil] at hmem
    exact (hnames parent hmem).2.2.2 rfl
  · intro hleaves
    exact ((foldl_push_cases (List.forall_mem_nil _) hsegs).resolve_left
      fun hstays => hleaves hstays.1).2

end Segments

/-! ### Paths -/

theorem staysInside_iff (path : String) :
    StaysInside path ↔ StaysWithin 0 (segments path.toList) := by
  simp only [StaysInside, StaysWithin, Nat.zero_add]

theorem unsegments_ne_here {rooted : Bool} {segs : List Segment} (h : IsReduced rooted segs) :
    unsegments segs ≠ here := by
  intro hhere
  have hne : segs ≠ [] := by
    rintro rfl
    cases hhere
  have hsegs : segs = [here] := by
    rw [← segments_unsegments h.slash_notMem hne, hhere]
    rfl
  rcases h.eq_parent_or_isName here (by rw [hsegs]; exact List.mem_cons_self) with hup | hname
  · exact absurd hup (by decide)
  · exact hname.2.2.1 rfl

/-- What is written of a path after a directory is what is kept of its segments. -/
theorem toList_continuation (path : String) :
    (continuation path).toList =
      unsegments (reduce (isRooted path.toList) (segments path.toList)) := by
  by_cases hpath : path = ""
  · rw [hpath]
    rfl
  · have hne := unsegments_ne_here (reduce_segments_isReduced path.toList)
    rw [continuation, join_singleton hpath, clean, String.toList_ofList, isRooted_cleanChars,
      cleanChars_eq]
    cases hrooted : isRooted path.toList with
    | true =>
      rw [hrooted] at hne
      simp [hne]
    | false =>
      rw [hrooted] at hne
      by_cases hkept : reduce false (segments path.toList) = []
      · simp [hkept, unsegments]
      · simp [hkept, hne]

/-- A path that stays inside is spelled below a directory as it is spelled alone. -/
theorem join_text_of_staysInside {d : Directory} (hd : d.names ≠ []) {path : String}
    (h : StaysInside path) :
    join [d.text, path] =
      if continuation path = "" then d.text else d.text ++ "/" ++ continuation path := by
  obtain ⟨names, hnames, hfold⟩ := exists_foldl_push_of_staysWithin
    (fun _ hs => slash_notMem_of_mem_segments hs) ((staysInside_iff path).1 h)
  have hkept : reduce (isRooted path.toList) (segments path.toList) = names.reverse := by
    rw [reduce, hfold, List.append_nil]
  have hkept' : reduce false (d.names ++ segments path.toList) = d.names ++ names.reverse := by
    rw [reduce_append, foldl_push_names false [] d.isName, List.append_nil, hfold,
      List.reverse_append, List.reverse_reverse]
  have hne : d.names ++ names.reverse ≠ [] := List.append_ne_nil_of_left_ne_nil hd _
  have hcontinuation := toList_continuation path
  rw [hkept] at hcontinuation
  apply String.toList_inj.1
  rw [toList_join_text hd, hkept', if_neg hne]
  by_cases hnone : names.reverse = []
  · have hempty : continuation path = "" := by
      rw [← String.toList_eq_nil_iff, hcontinuation, hnone]
      rfl
    rw [if_pos hempty, hnone, List.append_nil, Directory.text, String.toList_ofList]
  · have hsome : continuation path ≠ "" := by
      rw [ne_eq, ← String.toList_eq_nil_iff, hcontinuation]
      exact unsegments_ne_nil hnone fun n hn => (hnames n (List.mem_reverse.1 hn)).1
    rw [if_neg hsome, unsegments_append hd hnone, String.toList_append, String.toList_append,
      hcontinuation, Directory.text, String.toList_ofList]
    simp

/-- A spelling begins with a step to the parent just when such a step was kept. -/
theorem beginsWithParent_iff {segs : List Segment} (h : IsReduced false segs) :
    unsegments segs = parent ∨ parent ++ ['/'] <+: unsegments segs ↔ parent ∈ segs := by
  have hparent : ∀ s ∈ [parent], '/' ∉ s := by decide
  have hbelow : unsegments [parent] ++ ['/'] <+: unsegments segs ↔
      ∃ rest, rest ≠ [] ∧ segs = [parent] ++ rest :=
    unsegments_isPrefix_iff (List.cons_ne_nil _ _) hparent h.slash_notMem
  have hsingle : unsegments [parent] = parent := rfl
  rw [hsingle] at hbelow
  rw [hbelow]
  constructor
  · rintro (hall | ⟨rest, -, hrest⟩)
    · have hne : segs ≠ [] := by
        rintro rfl
        cases hall
      rw [← segments_unsegments h.slash_notMem hne, hall]
      exact List.mem_cons_self
    · rw [hrest]
      exact List.mem_cons_self
  · intro hmem
    obtain ⟨ups, names, rfl, hnames, -⟩ := h
    cases ups with
    | zero => exact absurd rfl (hnames parent (by simpa using hmem)).2.2.2
    | succ ups =>
      rw [List.replicate_succ, List.cons_append]
      by_cases hrest : List.replicate ups parent ++ names = []
      · rw [hrest]
        exact .inl hsingle
      · exact .inr ⟨_, hrest, rfl⟩

/-- A path that is not rooted and does not stay inside is spelled alone with a step to the parent in
    front, and only such a path is. -/
theorem not_staysInside_iff {path : String} (hpath : path ≠ "")
    (hrooted : isRooted path.toList = false) :
    ¬ StaysInside path ↔ join [path] = ".." ∨ "../".toList <+: (join [path]).toList := by
  have hslash : ∀ s ∈ segments path.toList, '/' ∉ s := fun _ hs => slash_notMem_of_mem_segments hs
  have hspelled : (join [path]).toList = cleanChars path.toList := by
    rw [join_singleton hpath, clean, String.toList_ofList]
  have hup : "..".toList = parent := rfl
  have hbelow : "../".toList = parent ++ ['/'] := rfl
  rw [staysInside_iff, ← parent_mem_reduce_iff hslash, ← String.toList_inj, hspelled, hup, hbelow,
    cleanChars_of_not_rooted hrooted]
  split
  · next hnone =>
    rw [hnone]
    decide
  · exact (beginsWithParent_iff (reduce_isReduced false hslash)).symm

/-- A path that stays inside a repository continues the spelling of the repository by its own, so that it
    is the repository or lies below it. Of a path that is not rooted its own spelling tells whether it
    stays inside: it does not just when that is a step to the parent or begins with one. -/
theorem staysInside_join (path : String) :
    (∀ repo : Directory, repo.names ≠ [] → StaysInside path →
      join [repo.text, path] =
          (if continuation path = "" then repo.text else repo.text ++ "/" ++ continuation path) ∧
        (join [repo.text, path] = repo.text ∨ repo.Above (join [repo.text, path]))) ∧
    (path ≠ "" → isRooted path.toList = false →
      (¬ StaysInside path ↔ join [path] = ".." ∨ "../".toList <+: (join [path]).toList)) := by
  refine ⟨fun repo hrepo hstays => ?_, not_staysInside_iff⟩
  have hjoin := join_text_of_staysInside hrepo hstays
  refine ⟨hjoin, ?_⟩
  split at hjoin
  · exact .inl hjoin
  · refine .inr ?_
    rw [Directory.Above, hjoin, String.toList_append, String.toList_append]
    exact List.prefix_append _ _

theorem staysInside_join_sources :
    join ["github.com/acme/app", "/src//gen/../a.rs"] = "github.com/acme/app/src/a.rs" ∧
      ¬ StaysInside "src/../../app/a.rs" := by
  let repo : Directory := ⟨["github.com".toList, "acme".toList, "app".toList], by decide⟩
  have hrepo : repo.text = "github.com/acme/app" := by decide
  have hjoin := ((staysInside_join "/src//gen/../a.rs").1 repo (by decide) (by decide)).1
  rw [hrepo] at hjoin
  refine ⟨hjoin.trans (by decide), ?_⟩
  exact ((staysInside_join "src/../../app/a.rs").2 (by decide) (by decide)).2 (by decide)

end PathGuard.Path
