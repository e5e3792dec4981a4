import PathGuard.Proofs.Glob.Text
import PathGuard.Proofs.Path.Segments

/-!
# Patterns read segment by segment

A pattern without groups, classes and escapes is cut at its slashes into segments. Each segment is read
for itself, character by character, unless it is two stars: these make no token of their own but change
the one that stands for the slash before them.

## Main definitions

- `Glob.IsSimple`: characters that begin no class, group or escape
- `Token.ofChar`: the token of such a character
- `Token.Gap`: what has been read before a segment
- `Token.Gap.tokens`: the tokens of segments after a gap

## Main results

- `Token.ofString_of_isSimple`: the tokens of a pattern, by its segments
-/

namespace PathGuard.Glob

open PathGuard.Path (Segment segments unsegments)

/-- A character that begins no class, group or escape. -/
def IsSimple (c : Char) : Prop :=
  c ∉ ['[', '\\', '\x7b', '\x7d']

instance : DecidablePred IsSimple := fun c =>
  inferInstanceAs (Decidable (c ∉ ['[', '\\', '\x7b', '\x7d']))

/-- The segment that spans segments. -/
def twoStars : Segment := ['*', '*']

namespace Lexeme

/-- The lexeme of a simple character other than a star. -/
def ofSimple (c : Char) : Lexeme :=
  if c = '?' then .any else plainLexeme c

theorem begin_of_isSimple {c : Char} (hc : IsSimple c) (hstar : c ≠ '*') :
    begin c = .inl (ofSimple c) := by
  by_cases hany : c = '?'
  · subst hany
    rfl
  · have hplain : IsPlain c := by
      simp only [IsSimple, IsPlain, List.mem_cons, List.not_mem_nil, or_false, not_or] at hc ⊢
      exact ⟨hany, hstar, hc⟩
    rw [begin_of_isPlain hplain, ofSimple, if_neg hany]

theorem scan_star (cs : List Char) : scan .plain ('*' :: cs) = scan .starred cs :=
  rfl

theorem scan_simple {c : Char} (hc : IsSimple c) (hstar : c ≠ '*') (cs : List Char) :
    scan .plain (c :: cs) = ofSimple c :: scan .plain cs := by
  rw [scan, begin_of_isSimple hc hstar]

theorem scan_starred_star (cs : List Char) :
    scan .starred ('*' :: cs) = .doubleStar :: scan .plain cs := by
  rw [scan, if_pos rfl]

theorem scan_starred_simple {c : Char} (hc : IsSimple c) (hstar : c ≠ '*') (cs : List Char) :
    scan .starred (c :: cs) = .star :: ofSimple c :: scan .plain cs := by
  rw [scan, if_neg hstar, begin_of_isSimple hc hstar]

/-- A slash ends what is scanned before it, be it a star that waits for another one. -/
theorem scan_append_slash {cs : List Char} (hcs : ∀ c ∈ cs, IsSimple c) (rest : List Char) :
    scan .plain (cs ++ '/' :: rest) =
      scan .plain cs ++ .literal '/' false :: scan .plain rest ∧
    scan .starred (cs ++ '/' :: rest) =
      scan .starred cs ++ .literal '/' false :: scan .plain rest := by
  induction cs with
  | nil => exact ⟨rfl, rfl⟩
  | cons c cs ih =>
    rw [List.forall_mem_cons] at hcs
    obtain ⟨hplain, hstarred⟩ := ih hcs.2
    by_cases hstar : c = '*'
    · subst hstar
      simp only [List.cons_append, scan_star, scan_starred_star, hplain, hstarred]
      trivial
    · simp only [List.cons_append, scan_simple hcs.1 hstar, scan_starred_simple hcs.1 hstar, hplain]
      trivial

theorem exists_scan_starred (cs : List Char) :
    ∃ l later, scan .starred cs = l :: later ∧ (l = .star ∨ l = .doubleStar) := by
  cases cs with
  | nil => exact ⟨_, _, rfl, .inl rfl⟩
  | cons c cs =>
    by_cases hstar : c = '*'
    · subst hstar
      exact ⟨_, _, scan_starred_star cs, .inr rfl⟩
    · rw [scan, if_neg hstar]
      cases begin c with
      | inl l => exact ⟨_, _, rfl, .inl rfl⟩
      | inr mode => exact ⟨_, _, rfl, .inl rfl⟩

end Lexeme

namespace Token

/-- What follows two stars within a segment is neither the end nor a slash. -/
theorem Follower.ofLexemes_scan {c : Char} (hc : IsSimple c) (hslash : c ≠ '/') (cs : List Char)
    (rest : List Lexeme) :
    Follower.ofLexemes (Lexeme.scan .plain (c :: cs) ++ rest) = .other ∨
      Follower.ofLexemes (Lexeme.scan .plain (c :: cs) ++ rest) = .delimiter := by
  by_cases hstar : c = '*'
  · obtain ⟨l, later, hscan, rfl | rfl⟩ := Lexeme.exists_scan_starred cs
    · rw [hstar, Lexeme.scan_star, hscan]
      exact .inl rfl
    · rw [hstar, Lexeme.scan_star, hscan]
      exact .inl rfl
  · rw [Lexeme.scan_simple hc hstar, Lexeme.ofSimple, plainLexeme]
    split_ifs
    · exact .inl rfl
    · exact .inr rfl
    · left
      simp [ofLexemes, hslash]

/-- The token of a simple character. -/
def ofChar (c : Char) : Token :=
  if c = '*' then .star else if c = '?' then .any else .literal c

namespace Draft

def addSimple (d : Draft) (cs : List Char) : Draft :=
  cs.foldl (fun d c => (d.add (ofChar c)).seen (some c)) d

@[simp] theorem addSimple_nil (d : Draft) : d.addSimple [] = d :=
  rfl

theorem addSimple_cons (d : Draft) (c : Char) (cs : List Char) :
    d.addSimple (c :: cs) = ((d.add (ofChar c)).seen (some c)).addSimple cs :=
  rfl

theorem branch_addSimple (d : Draft) (cs : List Char) :
    (d.addSimple cs).branch = (cs.map ofChar).reverse ++ d.branch := by
  induction cs generalizing d with
  | nil => rfl
  | cons c cs ih =>
    rw [addSimple_cons, ih]
    simp [add, seen]

theorem frames_addSimple (d : Draft) (cs : List Char) : (d.addSimple cs).frames = d.frames := by
  induction cs generalizing d with
  | nil => rfl
  | cons c cs ih => exact ih _

/-- A draft in the middle of a segment, outside of groups. -/
structure IsInside (d : Draft) : Prop where
  frames_eq : d.frames = []
  branch_ne : d.branch ≠ []
  last_ne : d.last ≠ some '/'

variable {d : Draft}

theorem isInside_addSimple_singleton {c : Char} (hframes : d.frames = []) (hslash : c ≠ '/') :
    (d.addSimple [c]).IsInside := by
  refine ⟨hframes, ?_, ?_⟩
  · simp [branch_addSimple]
  · simp [addSimple, seen, hslash]

theorem starRole_of_isInside (hd : d.IsInside) (follower : Follower) :
    d.starRole follower = .twoStars := by
  have hbranch : d.branch.isEmpty = false := by simpa using hd.branch_ne
  have hboundary : d.atBoundary = false := by simp [atBoundary, hd.last_ne, hd.frames_eq]
  unfold starRole
  rw [hbranch, hboundary]
  rfl

theorem starRole_of_follower (hd : d.frames = []) {follower : Follower}
    (hfollower : follower = .other ∨ follower = .delimiter) : d.starRole follower = .twoStars := by
  unfold starRole
  rw [hd]
  rcases hfollower with rfl | rfl <;> cases d.branch.isEmpty <;> cases d.atBoundary <;> rfl

end Draft

variable {d : Draft}

theorem build_simple (hd : d.frames = []) {c : Char} (hstar : c ≠ '*') (rest : List Lexeme) :
    build d (Lexeme.ofSimple c :: rest) = build (d.addSimple [c]) rest := by
  by_cases hany : c = '?'
  · subst hany
    rfl
  · have hone : d.addSimple [c] = d.addText [c] := by
      simp [Draft.addSimple, Draft.addText, ofChar, hstar, hany]
    rw [Lexeme.ofSimple, if_neg hany, hone]
    exact build_plain hd [c] rest

theorem build_star (d : Draft) (rest : List Lexeme) :
    build d (.star :: rest) = build (d.addSimple ['*']) rest := by
  simp [build, Draft.read, Draft.addSimple, ofChar, Lexeme.lastChar]

theorem addSimple_two_stars (d : Draft) :
    d.addSimple ['*', '*'] = (d.addStars .twoStars).seen (some '*') := by
  simp [Draft.addSimple, Draft.addStars, Draft.add, Draft.seen, ofChar]

theorem build_doubleStar {rest : List Lexeme} (hrest : ∀ later, rest ≠ .literal '/' false :: later) :
    build d (.doubleStar :: rest) =
      build ((d.addStars (d.starRole (.ofLexemes rest))).seen (some '*')) rest := by
  rw [build]
  · simp [Draft.read, Lexeme.lastChar]
  · exact fun later _ => hrest later

/-- Two stars in the middle of a segment are two stars, whatever follows. -/
theorem build_doubleStar_of_isInside (hd : d.IsInside) (rest : List Lexeme) :
    build d (.doubleStar :: rest) = build (d.addSimple ['*', '*']) rest := by
  rw [addSimple_two_stars]
  by_cases hrest : ∃ later, rest = .literal '/' false :: later
  · obtain ⟨later, rfl⟩ := hrest
    simp [build, Draft.read, Draft.addStarsSlash, Draft.starRole_of_isInside hd, Draft.add,
      Draft.seen, Lexeme.lastChar]
  · rw [not_exists] at hrest
    rw [build_doubleStar hrest, Draft.starRole_of_isInside hd]

/-- The rest of a segment, once something of it has been read, is read character by character. -/
theorem build_scan_of_isInside (hd : d.IsInside) {cs : List Char}
    (hcs : ∀ c ∈ cs, IsSimple c ∧ c ≠ '/') (rest : List Lexeme) :
    build d (Lexeme.scan .plain cs ++ rest) = build (d.addSimple cs) rest ∧
    build d (Lexeme.scan .starred cs ++ rest) = build (d.addSimple ('*' :: cs)) rest := by
  -- the induction is on the characters for both modes, since a star hands over to the other mode
  induction cs generalizing d with
  | nil => exact ⟨rfl, build_star d rest⟩
  | cons c cs ih =>
    rw [List.forall_mem_cons] at hcs
    obtain ⟨⟨hc, hslash⟩, hcs⟩ := hcs
    have hstarred : (d.addSimple ['*']).IsInside :=
      Draft.isInside_addSimple_singleton hd.frames_eq (by decide)
    by_cases hstar : c = '*'
    · subst hstar
      have htwo : (d.addSimple ['*', '*']).IsInside :=
        Draft.isInside_addSimple_singleton hstarred.frames_eq (by decide)
      rw [Lexeme.scan_star, Lexeme.scan_starred_star, List.cons_append,
        build_doubleStar_of_isInside hd]
      exact ⟨(ih hd hcs).2, (ih htwo hcs).1⟩
    · rw [Lexeme.scan_simple hc hstar, Lexeme.scan_starred_simple hc hstar, List.cons_append,
        List.cons_append, List.cons_append, build_star, build_simple hd.frames_eq hstar,
        build_simple hstarred.frames_eq hstar]
      exact ⟨(ih (Draft.isInside_addSimple_singleton hd.frames_eq hslash) hcs).1,
        (ih (Draft.isInside_addSimple_singleton hstarred.frames_eq hslash) hcs).1⟩

/-- Two stars that begin a longer segment are two stars. -/
theorem build_doubleStar_cons (hd : d.frames = []) {c : Char} (hc : IsSimple c) (hslash : c ≠ '/')
    (cs : List Char) (rest : List Lexeme) :
    build d (.doubleStar :: (Lexeme.scan .plain (c :: cs) ++ rest)) =
      build (d.addSimple ['*', '*']) (Lexeme.scan .plain (c :: cs) ++ rest) := by
  have hfollower := Follower.ofLexemes_scan hc hslash cs rest
  rw [build_doubleStar, Draft.starRole_of_follower hd hfollower, addSimple_two_stars]
  intro later hlater
  rw [hlater] at hfollower
  rcases hfollower with h | h <;> cases h

/-- A segment that is not two stars is read character by character. -/
theorem build_scan_segment (hd : d.frames = []) {cs : List Char}
    (hcs : ∀ c ∈ cs, IsSimple c ∧ c ≠ '/') (hne : cs ≠ twoStars) (rest : List Lexeme) :
    build d (Lexeme.scan .plain cs ++ rest) = build (d.addSimple cs) rest := by
  have hinside : ∀ {d : Draft} {c : Char}, d.frames = [] → c ≠ '/' → (d.addSimple [c]).IsInside :=
    Draft.isInside_addSimple_singleton
  have hstarred : (d.addSimple ['*']).frames = [] := hd
  cases cs with
  | nil => rfl
  | cons c cs =>
    rw [List.forall_mem_cons] at hcs
    by_cases hstar : c = '*'
    · subst hstar
      rw [Lexeme.scan_star]
      cases cs with
      | nil => exact build_star d rest
      | cons c cs =>
        have hcs' := List.forall_mem_cons.1 hcs.2
        by_cases hstar : c = '*'
        · subst hstar
          rw [Lexeme.scan_starred_star, List.cons_append]
          cases cs with
          | nil => exact absurd rfl hne
          | cons c later =>
            have hc := hcs'.2 c List.mem_cons_self
            rw [build_doubleStar_cons hd hc.1 hc.2]
            exact (build_scan_of_isInside (hinside hstarred (by decide)) hcs'.2 rest).1
        · rw [Lexeme.scan_starred_simple hcs'.1.1 hstar, List.cons_append, List.cons_append,
            build_star, build_simple hstarred hstar]
          exact (build_scan_of_isInside (hinside hstarred hcs'.1.2) hcs'.2 rest).1
    · rw [Lexeme.scan_simple hcs.1.1 hstar, List.cons_append, build_simple hd hstar]
      exact (build_scan_of_isInside (hinside hd hcs.1.2) hcs.2 rest).1

/-! ### Segments -/

/-- What has been read before a segment. -/
structure Gap where
  /-- Nothing has been read but segments of two stars. -/
  initial : Bool
  /-- The last segment read is two stars. -/
  wide : Bool

namespace Gap

def start : Gap := ⟨true, false⟩

def slash : Gap := ⟨false, false⟩

/-- The last token read, as it stands before a segment. -/
def tokens : Gap → List Token
  | ⟨true, false⟩ => []
  | ⟨true, true⟩ => [.leading]
  | ⟨false, false⟩ => [.literal '/']
  | ⟨false, true⟩ => [.spanning]

@[simp] theorem tokens_slash : slash.tokens = [.literal '/'] :=
  rfl

@[simp] theorem reverse_tokens (gap : Gap) : gap.tokens.reverse = gap.tokens := by
  obtain ⟨_ | _, _ | _⟩ := gap <;> rfl

/-- What two stars make of the gap before them if a segment follows. -/
def widen (gap : Gap) : Gap :=
  { gap with wide := true }

/-- What two stars make of the gap before them at the end. -/
def close (gap : Gap) : Token :=
  if gap.initial then .leading else .trailing

/-- The tokens of the segments after a gap, the one of the gap included. -/
def read : Gap → List Segment → List Token
  | gap, [] => gap.tokens
  | gap, [p] => if p = twoStars then [gap.close] else gap.tokens ++ p.map ofChar
  | gap, p :: q :: ps =>
    if p = twoStars then gap.widen.read (q :: ps)
    else gap.tokens ++ p.map ofChar ++ slash.read (q :: ps)

end Gap

/-- A draft that has read up to a gap, with the tokens before the gap in reading order. -/
structure Draft.IsAt (d : Draft) (gap : Gap) (before : List Token) : Prop where
  frames_eq : d.frames = []
  branch_eq : d.branch = gap.tokens ++ before.reverse
  last_eq : gap = .start ∨ d.last = some '/'
  before_eq : gap.initial = true → before = []

theorem Draft.IsAt.addStars_nothing {d : Draft} {gap : Gap} {before : List Token}
    (hd : d.IsAt gap before) :
    d.addStars (d.starRole .nothing) = { d with branch := gap.close :: before.reverse } := by
  obtain ⟨branch, frames, last⟩ := d
  obtain ⟨rfl, rfl, hlast, hbefore⟩ := hd
  rcases hlast with rfl | rfl
  · obtain rfl := hbefore rfl
    rfl
  · obtain ⟨_ | _, _ | _⟩ := gap
    · rfl
    · rfl
    -- what has been read is two stars or nothing
    all_goals
      obtain rfl := hbefore rfl
      rfl

theorem Draft.IsAt.addStarsSlash {d : Draft} {gap : Gap} {before : List Token}
    (hd : d.IsAt gap before) : d.addStarsSlash.IsAt gap.widen before := by
  obtain ⟨branch, frames, last⟩ := d
  obtain ⟨rfl, rfl, hlast, hbefore⟩ := hd
  rcases hlast with rfl | rfl
  · obtain rfl := hbefore rfl
    exact ⟨rfl, rfl, .inr rfl, fun _ => rfl⟩
  · obtain ⟨_ | _, _ | _⟩ := gap
    · exact ⟨rfl, rfl, .inr rfl, nofun⟩
    · exact ⟨rfl, rfl, .inr rfl, nofun⟩
    all_goals
      obtain rfl := hbefore rfl
      exact ⟨rfl, rfl, .inr rfl, fun _ => rfl⟩

theorem Draft.IsAt.addSimple_slash {d : Draft} {gap : Gap} {before : List Token}
    (hd : d.IsAt gap before) (p : Segment) :
    (((d.addSimple p).add (.literal '/')).seen (some '/')).IsAt .slash
      (before ++ gap.tokens ++ p.map ofChar) := by
  refine ⟨(frames_addSimple d p).trans hd.frames_eq, ?_, .inr rfl, nofun⟩
  simp [add, seen, branch_addSimple, hd.branch_eq]

/-- Segments after a gap are read to the tokens that the gap makes of them. -/
theorem build_segments {d : Draft} {gap : Gap} {before : List Token} (hd : d.IsAt gap before)
    {segs : List Segment} (hne : segs ≠ []) (hsegs : ∀ p ∈ segs, ∀ c ∈ p, IsSimple c ∧ c ≠ '/') :
    build d (Lexeme.scan .plain (unsegments segs)) = .ok (before ++ gap.read segs) := by
  have hslash : ∀ (p q : Segment) (ps : List Segment), (∀ c ∈ p, IsSimple c ∧ c ≠ '/') →
      Lexeme.scan .plain (unsegments (p :: q :: ps)) =
        Lexeme.scan .plain p ++ .literal '/' false :: Lexeme.scan .plain (unsegments (q :: ps)) := by
    intro p q ps hp
    rw [unsegments, List.intercalate_cons_cons, List.append_assoc, List.singleton_append]
    exact (Lexeme.scan_append_slash (fun c hc => (hp c hc).1) _).1
  -- the induction follows the reading of gaps, and the draft moves on to the next gap
  fun_induction Gap.read gap segs generalizing d before with
  | case1 gap => exact absurd rfl hne
  | case2 gap =>
    have hscan : Lexeme.scan .plain (unsegments [twoStars]) = [.doubleStar] := rfl
    rw [hscan, build_doubleStar (by simp), Follower.ofLexemes, hd.addStars_nothing]
    simp [build_nil, Draft.seen, hd.frames_eq]
  | case3 gap p hp =>
    rw [List.forall_mem_singleton] at hsegs
    have hbuild := build_scan_segment hd.frames_eq hsegs hp []
    rw [List.append_nil] at hbuild
    rw [unsegments, List.intercalate_singleton, hbuild,
      build_nil ((Draft.frames_addSimple d p).trans hd.frames_eq)]
    simp [Draft.branch_addSimple, hd.branch_eq]
  | case4 gap q ps ih =>
    rw [List.forall_mem_cons] at hsegs
    have hscan : Lexeme.scan .plain twoStars = [.doubleStar] := rfl
    rw [hslash _ _ _ hsegs.1, hscan]
    exact ih hd.addStarsSlash (by simp) hsegs.2
  | case5 gap p q ps hp ih =>
    rw [List.forall_mem_cons] at hsegs
    rw [hslash _ _ _ hsegs.1, build_scan_segment hd.frames_eq hsegs.1 hp]
    have hnext := ih (hd.addSimple_slash p) (by simp) hsegs.2
    simpa [build, Draft.read, Lexeme.lastChar] using hnext

/-- The tokens of a pattern without classes, groups and escapes are those of its segments. -/
theorem ofString_of_isSimple {pattern : String} (hpattern : ∀ c ∈ pattern.toList, IsSimple c) :
    ofString pattern = .ok (Gap.start.read (segments pattern.toList)) := by
  have hempty : Draft.empty.IsAt .start [] := ⟨rfl, rfl, .inl rfl, fun _ => rfl⟩
  have hsegs : ∀ p ∈ segments pattern.toList, ∀ c ∈ p, IsSimple c ∧ c ≠ '/' := by
    intro p hp c hc
    refine ⟨hpattern c ?_, ?_⟩
    · rw [← Path.unsegments_segments pattern.toList]
      exact Path.mem_unsegments hp hc
    · rintro rfl
      exact Path.slash_notMem_of_mem_segments hp hc
  have hbuild := build_segments hempty (Path.segments_ne_nil _) hsegs
  rw [Path.unsegments_segments] at hbuild
  exact hbuild

end Token
end PathGuard.Glob
