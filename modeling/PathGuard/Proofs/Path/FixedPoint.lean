import PathGuard.Proofs.Path.Canonical

/-!
# Fixed points of cleaning

What cleaning leaves has one of three forms: the path that is only `here`, the names on the way from
the root after a slash, or steps to the parent followed by names. Cleaning changes no text of these
forms. So they are the canonical spellings, no text of another form is left by cleaning, and cleaning
a second time changes nothing.

## Main definitions

- `IsCanonical`: texts of one of the three forms

## Main results

- `reduce_eq_self`: segments of a canonical spelling are all kept
- `isCanonical_clean`, `clean_eq_self`: the two directions
- `clean_eq_self_iff_isCanonical`: the canonical spellings are what cleaning leaves and what it keeps
-/

namespace PathGuard.Path

/-- The spellings that cleaning leaves. -/
inductive IsCanonical : String → Prop where
  | here : IsCanonical "."
  | rooted (names : List Segment) (hnames : ∀ s ∈ names, IsName s) :
      IsCanonical (String.ofList ('/' :: unsegments names))
  | relative (ups : ℕ) (names : List Segment) (hnames : ∀ s ∈ names, IsName s)
      (hne : List.replicate ups parent ++ names ≠ []) :
      IsCanonical (String.ofList (unsegments (List.replicate ups parent ++ names)))

/-! ### Keeping segments -/

theorem foldl_push_names {names : List Segment} (rooted : Bool) (kept : List Segment)
    (hnames : ∀ s ∈ names, IsName s) : names.foldl (push rooted) kept = names.reverse ++ kept := by
  induction names generalizing kept with
  | nil => rfl
  | cons s names ih =>
    rw [List.foldl_cons, push_name rooted kept (hnames s List.mem_cons_self),
      ih _ fun t ht => hnames t (List.mem_cons_of_mem s ht)]
    simp

/-- Steps to the parent are kept one on top of the other, unless the way begins at the root. -/
theorem foldl_push_parents (n m : ℕ) :
    (List.replicate n parent).foldl (push false) (List.replicate m parent) =
      List.replicate (m + n) parent := by
  induction n generalizing m with
  | zero => rfl
  | succ n ih =>
    have hpush : push false (List.replicate m parent) parent = List.replicate (m + 1) parent := by
      cases m with
      | zero => exact push_parent_nil false
      | succ m => exact push_parent_parent false (List.replicate m parent)
    rw [List.replicate_succ, List.foldl_cons, hpush, ih, Nat.add_assoc, Nat.add_comm 1 n]

theorem reduce_eq_self {rooted : Bool} {segs : List Segment} (h : IsReduced rooted segs) :
    reduce rooted segs = segs := by
  obtain ⟨ups, names, rfl, hnames, hups⟩ := h
  cases rooted with
  | true =>
    obtain rfl : ups = 0 := hups rfl
    rw [reduce, List.replicate_zero, List.nil_append, foldl_push_names true [] hnames,
      List.append_nil, List.reverse_reverse]
  | false =>
    have hparents := foldl_push_parents ups 0
    rw [List.replicate_zero, Nat.zero_add] at hparents
    rw [reduce, List.foldl_append, hparents, foldl_push_names false _ hnames, List.reverse_append,
      List.reverse_reverse, List.reverse_replicate]

/-- The segments of a canonical spelling are kept as those of the text were that it was made from. -/
theorem reduce_segments_cleanChars (cs : List Char) :
    reduce (isRooted cs) (segments (cleanChars cs)) = reduce (isRooted cs) (segments cs) := by
  rw [reduce, foldl_segments_cleanChars (push_nil _) (push_here _)]
  exact reduce_eq_self (reduce_segments_isReduced cs)

/-- A text is cleaned by whether it is rooted and by the segments that are kept of it. -/
theorem cleanChars_congr {cs ds : List Char} (hrooted : isRooted cs = isRooted ds)
    (hreduce : reduce (isRooted ds) (segments cs) = reduce (isRooted ds) (segments ds)) :
    cleanChars cs = cleanChars ds := by
  rw [cleanChars_eq cs, cleanChars_eq ds, hrooted, hreduce]

theorem cleanChars_cleanChars (cs : List Char) : cleanChars (cleanChars cs) = cleanChars cs :=
  cleanChars_congr (isRooted_cleanChars cs) (reduce_segments_cleanChars cs)

/-! ### Canonical spellings -/

theorem isCanonical_clean (path : String) : IsCanonical (clean path) := by
  obtain ⟨ups, names, hkept, hnames, hups⟩ := reduce_segments_isReduced path.toList
  rw [clean, cleanChars_eq, hkept]
  split
  · next hrooted =>
    obtain rfl : ups = 0 := hups hrooted
    exact .rooted names hnames
  · split
    · exact .here
    · next hne => exact .relative ups names hnames hne

/-- A text of one of the three forms is what cleaning makes of its own segments. -/
theorem clean_eq_self {path : String} (h : IsCanonical path) : clean path = path := by
  cases h with
  | here => rfl
  | rooted names hnames =>
    have hkept : reduce true (segments ('/' :: unsegments names)) = names := by
      rw [reduce, segments, if_pos rfl, List.foldl_cons, push_nil,
        foldl_segments_unsegments (push_nil true) [] fun s hs => (hnames s hs).2.1]
      exact reduce_eq_self ⟨0, names, rfl, hnames, fun _ => rfl⟩
    have hrooted : isRooted ('/' :: unsegments names) = true := rfl
    rw [clean, String.toList_ofList, cleanChars_eq, hrooted, if_pos rfl, hkept]
  | relative ups names hnames hne =>
    have hreduced : IsReduced false (List.replicate ups parent ++ names) :=
      ⟨ups, names, rfl, hnames, fun h => by cases h⟩
    have hrooted := isRooted_unsegments hreduced.ne_nil_and_slash_notMem
    rw [clean, String.toList_ofList, cleanChars_eq, hrooted,
      segments_unsegments hreduced.slash_notMem hne, reduce_eq_self hreduced, if_neg hne]
    rfl

/-- What cleaning leaves are the canonical spellings, each of them, and they are the texts that it does
    not change; so that nothing is left to do after it was done once. -/
theorem clean_eq_self_iff_isCanonical (path : String) :
    IsCanonical (clean path) ∧ ((∃ p, clean p = path) ↔ IsCanonical path) ∧
      (clean path = path ↔ IsCanonical path) ∧ clean (clean path) = clean path := by
  refine ⟨isCanonical_clean path, ⟨?_, fun h => ⟨path, clean_eq_self h⟩⟩,
    ⟨fun h => h ▸ isCanonical_clean path, clean_eq_self⟩, clean_eq_self (isCanonical_clean path)⟩
  rintro ⟨p, rfl⟩
  exact isCanonical_clean p

end PathGuard.Path
