import PathGuard.Proofs.Glob.Reading

/-!
# Segments against segments

A pattern without groups, classes and escapes says of each segment of a path what it may be. Its own
segments are aligned in order with those of the path: one of two stars takes any number of them, every
other one takes exactly one and has to match it from end to end.

## Main definitions

- `Glob.StandsFor`: a character of a pattern against bytes
- `Glob.Fits`: a segment of a pattern against the bytes of a segment
- `Glob.Aligns`: the segments of a pattern against those of a path

## Main results

- `Glob.aligns_cons_iff`, `Glob.aligns_twoStars_iff`: what the first segment of a pattern takes
- `Glob.append_eq_append_iff_of_isBroken`, `Glob.exists_of_slashed_eq_append`: how bytes are cut at
  their slashes
-/

namespace PathGuard.Glob

open PathGuard.Path (Segment)

/-- The bytes that a character of a pattern stands for. -/
inductive StandsFor : Char → List UInt8 → Prop
  /-- A star stands for any bytes. -/
  | star (bs : List UInt8) : StandsFor '*' bs
  /-- A question mark stands for one byte. -/
  | any (b : UInt8) : StandsFor '?' [b]
  | self {c : Char} (hstar : c ≠ '*') (hany : c ≠ '?') : StandsFor c (String.utf8EncodeChar c)

/-- Whether a segment of a pattern matches bytes from end to end. -/
inductive Fits : Segment → List UInt8 → Prop
  | nil : Fits [] []
  | cons {c : Char} {p : Segment} {taken rest : List UInt8} (hc : StandsFor c taken)
      (hp : Fits p rest) : Fits (c :: p) (taken ++ rest)

theorem standsFor_star_iff {w : List UInt8} : StandsFor '*' w ↔ True :=
  iff_of_true (.star w) trivial

theorem standsFor_any_iff {w : List UInt8} : StandsFor '?' w ↔ ∃ b, w = [b] := by
  constructor
  · rintro (_ | b | ⟨-, hany⟩)
    · exact ⟨b, rfl⟩
    · exact absurd rfl hany
  · rintro ⟨b, rfl⟩
    exact .any b

theorem standsFor_self_iff {c : Char} (hstar : c ≠ '*') (hany : c ≠ '?') {w : List UInt8} :
    StandsFor c w ↔ w = String.utf8EncodeChar c := by
  constructor
  · rintro (_ | _ | _)
    · exact absurd rfl hstar
    · exact absurd rfl hany
    · rfl
  · rintro rfl
    exact .self hstar hany

theorem fits_nil_iff {w : List UInt8} : Fits [] w ↔ w = [] := by
  constructor
  · rintro ⟨⟩
    rfl
  · rintro rfl
    exact .nil

theorem fits_cons_iff {c : Char} {p : Segment} {w : List UInt8} :
    Fits (c :: p) w ↔ ∃ taken rest, w = taken ++ rest ∧ StandsFor c taken ∧ Fits p rest := by
  constructor
  · rintro (_ | ⟨hc, hp⟩)
    exact ⟨_, _, rfl, hc, hp⟩
  · rintro ⟨taken, rest, rfl, hc, hp⟩
    exact .cons hc hp

/-- Whether the segments of a pattern can be aligned in order with those of a path. -/
inductive Aligns : List Segment → List (List UInt8) → Prop
  | nil : Aligns [] []
  /-- A segment takes one segment, which it matches. -/
  | one {p : Segment} {ps : List Segment} {s : List UInt8} {ss : List (List UInt8)}
      (hp : p ≠ twoStars) (hs : Fits p s) (h : Aligns ps ss) : Aligns (p :: ps) (s :: ss)
  /-- Two stars take any number of segments, and at least one if they come last. -/
  | span {ps : List Segment} {ss : List (List UInt8)} (taken : List (List UInt8))
      (htaken : ps = [] → taken ≠ []) (h : Aligns ps ss) : Aligns (twoStars :: ps) (taken ++ ss)

theorem aligns_twoStars_iff {ps : List Segment} {ss : List (List UInt8)} :
    Aligns (twoStars :: ps) ss ↔
      ∃ taken rest, ss = taken ++ rest ∧ (ps = [] → taken ≠ []) ∧ Aligns ps rest := by
  constructor
  · intro h
    cases h with
    | one hp => exact absurd rfl hp
    | span taken htaken h => exact ⟨taken, _, rfl, htaken, h⟩
  · rintro ⟨taken, rest, rfl, htaken, h⟩
    exact .span taken htaken h

theorem aligns_cons_iff {p : Segment} (hp : p ≠ twoStars) {ps : List Segment}
    {ss : List (List UInt8)} :
    Aligns (p :: ps) ss ↔ ∃ s rest, ss = s :: rest ∧ Fits p s ∧ Aligns ps rest := by
  constructor
  · intro h
    cases h with
    | one _ hs h => exact ⟨_, _, rfl, hs, h⟩
    | span => exact absurd rfl hp
  · rintro ⟨s, rest, rfl, hs, h⟩
    exact .one hp hs h

theorem aligns_nil_iff {ss : List (List UInt8)} : Aligns [] ss ↔ ss = [] := by
  constructor
  · rintro ⟨⟩
    rfl
  · rintro rfl
    exact .nil

/-- Two stars that come last take all there is. -/
theorem aligns_last_iff {ss : List (List UInt8)} : Aligns [twoStars] ss ↔ ss ≠ [] := by
  simp [aligns_twoStars_iff, aligns_nil_iff]

/-- Two stars again add nothing. -/
theorem aligns_twoStars_twoStars_iff {ps : List Segment} {ss : List (List UInt8)} :
    Aligns (twoStars :: twoStars :: ps) ss ↔ Aligns (twoStars :: ps) ss := by
  rw [aligns_twoStars_iff]
  constructor
  · rintro ⟨taken, rest, rfl, -, h⟩
    obtain ⟨more, rest, rfl, hmore, h⟩ := aligns_twoStars_iff.1 h
    rw [← List.append_assoc]
    exact .span _ (fun hps hnil => hmore hps (List.append_eq_nil_iff.1 hnil).2) h
  · exact fun h => ⟨[], ss, rfl, by simp, h⟩

/-! ### Aligning by search -/

instance (c : Char) (w : List UInt8) : Decidable (StandsFor c w) :=
  if hstar : c = '*' then .isTrue (hstar ▸ .star w)
  else if hany : c = '?' then
    decidable_of_iff (w.length = 1) (by rw [hany, standsFor_any_iff, List.length_eq_one_iff])
  else decidable_of_iff _ (standsFor_self_iff hstar hany).symm

theorem exists_eq_append_iff_take {α : Type} {w : List α} {P : List α → List α → Prop} :
    (∃ taken rest, w = taken ++ rest ∧ P taken rest) ↔
      ∃ n ∈ List.range (w.length + 1), P (w.take n) (w.drop n) := by
  constructor
  · rintro ⟨taken, rest, rfl, h⟩
    refine ⟨taken.length, List.mem_range.2 ?_, by simpa using h⟩
    rw [List.length_append]
    omega
  · rintro ⟨n, -, h⟩
    exact ⟨_, _, (List.take_append_drop n w).symm, h⟩

theorem fits_cons_iff_take {c : Char} {p : Segment} {w : List UInt8} :
    Fits (c :: p) w ↔
      ∃ n ∈ List.range (w.length + 1), StandsFor c (w.take n) ∧ Fits p (w.drop n) := by
  rw [fits_cons_iff, exists_eq_append_iff_take]

theorem aligns_twoStars_iff_take {p : Segment} (hp : p = twoStars) {ps : List Segment}
    {ss : List (List UInt8)} :
    Aligns (p :: ps) ss ↔
      ∃ n ∈ List.range (ss.length + 1), (ps = [] → ss.take n ≠ []) ∧ Aligns ps (ss.drop n) := by
  rw [hp, aligns_twoStars_iff, exists_eq_append_iff_take]

theorem aligns_cons_iff_head? {p : Segment} (hp : p ≠ twoStars) {ps : List Segment}
    {ss : List (List UInt8)} :
    Aligns (p :: ps) ss ↔ ∃ s ∈ ss.head?, Fits p s ∧ Aligns ps ss.tail := by
  rw [aligns_cons_iff hp]
  cases ss <;> simp

instance decidableFits : ∀ (p : Segment) (w : List UInt8), Decidable (Fits p w)
  | [], _ => decidable_of_iff _ fits_nil_iff.symm
  | _ :: p, _ =>
    have : DecidablePred (Fits p) := decidableFits p
    decidable_of_iff _ fits_cons_iff_take.symm

instance decidableAligns : ∀ (ps : List Segment) (ss : List (List UInt8)), Decidable (Aligns ps ss)
  | [], _ => decidable_of_iff _ aligns_nil_iff.symm
  | p :: ps, _ =>
    have : DecidablePred (Aligns ps) := decidableAligns ps
    if hp : p = twoStars then decidable_of_iff _ (aligns_twoStars_iff_take hp).symm
    else decidable_of_iff _ (aligns_cons_iff_head? hp).symm

/-! ### Bytes of segments -/

/-- The bytes of segments, with a slash before each. -/
def slashed (ss : List (List UInt8)) : List UInt8 :=
  ss.flatMap (slash :: ·)

@[simp] theorem slashed_nil : slashed [] = [] :=
  rfl

@[simp] theorem slashed_cons (s : List UInt8) (ss : List (List UInt8)) :
    slashed (s :: ss) = slash :: (s ++ slashed ss) :=
  rfl

theorem slashed_append (ss rest : List (List UInt8)) :
    slashed (ss ++ rest) = slashed ss ++ slashed rest :=
  List.flatMap_append

/-- Bytes that end, or go on with a slash. -/
def IsBroken (bs : List UInt8) : Prop :=
  ∀ b ∈ bs.head?, b = slash

theorem isBroken_slashed (ss : List (List UInt8)) : IsBroken (slashed ss) := by
  cases ss <;> simp [IsBroken]

/-- The bytes up to the first slash are determined. -/
theorem append_eq_append_iff_of_isBroken {s t u v : List UInt8} (hs : slash ∉ s) (ht : slash ∉ t)
    (hu : IsBroken u) (hv : IsBroken v) : s ++ u = t ++ v ↔ s = t ∧ u = v := by
  have hcut : ∀ {s u : List UInt8}, slash ∉ s → IsBroken u →
      (s ++ u).takeWhile (· != slash) = s := by
    intro s u hs hu
    have hall : ∀ b ∈ s, (b != slash) = true := fun b hb => by
      simpa using fun h : b = slash => hs (h ▸ hb)
    rw [List.takeWhile_append_of_pos hall]
    cases u with
    | nil => simp
    | cons b u =>
      obtain rfl : b = slash := hu b rfl
      simp
  constructor
  · intro h
    have hst := congrArg (List.takeWhile (· != slash)) h
    rw [hcut hs hu, hcut ht hv] at hst
    subst hst
    exact ⟨rfl, List.append_cancel_left h⟩
  · rintro ⟨rfl, rfl⟩
    rfl

/-- A slash in the bytes of segments stands before one of them. -/
theorem exists_of_slashed_eq_append {ss : List (List UInt8)} (hss : ∀ s ∈ ss, slash ∉ s)
    {u v : List UInt8} (h : slashed ss = u ++ slash :: v) :
    ∃ taken rest, ss = taken ++ rest ∧ slashed rest = slash :: v := by
  induction ss generalizing u with
  | nil => simp at h
  | cons s ss ih =>
    rw [List.forall_mem_cons] at hss
    cases u with
    | nil => exact ⟨[], s :: ss, rfl, h⟩
    | cons b u =>
      rw [slashed_cons, List.cons_append, List.cons.injEq] at h
      -- the slash does not lie within the first segment, so it lies behind
      rcases List.append_eq_append_iff.1 h.2 with ⟨a, rfl, hrest⟩ | ⟨a, rfl, hrest⟩
      · obtain ⟨taken, rest, rfl, hv⟩ := ih hss.2 hrest
        exact ⟨s :: taken, rest, rfl, hv⟩
      · cases a with
        | nil =>
          obtain ⟨taken, rest, rfl, hv⟩ := ih hss.2 (u := []) hrest.symm
          exact ⟨(u ++ []) :: taken, rest, rfl, hv⟩
        | cons c a =>
          rw [List.cons_append, List.cons.injEq] at hrest
          exact absurd (by simp [← hrest.1]) hss.1

end PathGuard.Glob
