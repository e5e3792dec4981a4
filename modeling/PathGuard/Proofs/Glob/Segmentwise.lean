import PathGuard.Proofs.Glob.Alignment
import PathGuard.Proofs.Rules.Matching

/-!
# Patterns match segment by segment

The tokens of a pattern know nothing of segments, and some of them go over any bytes. For a pattern
without groups, classes and escapes they agree with the alignment of its segments all the same, because
a token that goes over any bytes begins at a slash and ends before one or at the end. So that a slash
stands before every segment, one is put before the first as well.

## Main definitions

- `Token.Gap.stars`: the segments of two stars that a gap stands for
- `byteSegments`: the bytes of the segments of a path

## Main results

- `Token.slashed_mem_seqLanguage_read_iff`: the texts of the tokens after a gap
- `Token.accepts_read_iff`: a pattern accepts what its tokens have with a slash in front
- `exists_compileAll_and_first?_iff_aligns`: a pattern matches the paths that its segments can be
  aligned with
-/

namespace PathGuard.Glob

open PathGuard.Path (Segment)

/-! ### Texts of tokens -/

namespace Token

variable {l : Language UInt8} {w : List UInt8}

/-- The text of one slash. -/
def slashLanguage : Language UInt8 :=
  oneByte (· == slash)

theorem mem_slashLanguage_mul_iff : w ∈ slashLanguage * l ↔ ∃ v ∈ l, w = slash :: v := by
  rw [Language.mem_mul]
  constructor
  · rintro ⟨-, ⟨b, hb, rfl⟩, v, hv, rfl⟩
    rw [beq_iff_eq.1 hb]
    exact ⟨v, hv, rfl⟩
  · rintro ⟨v, hv, rfl⟩
    exact ⟨[slash], ⟨slash, by simp, rfl⟩, v, hv, rfl⟩

theorem cons_mem_slashLanguage_mul_iff : slash :: w ∈ slashLanguage * l ↔ w ∈ l := by
  simp [mem_slashLanguage_mul_iff]

theorem language_literal_slash : language (.literal '/') = slashLanguage := by
  rw [language]
  ext w
  constructor
  · rintro rfl
    exact ⟨slash, by simp, rfl⟩
  · rintro ⟨b, hb, rfl⟩
    rw [beq_iff_eq.1 hb]
    rfl

theorem language_spanning : language .spanning = slashLanguage * language .leading := by
  rw [language, language, mul_add, mul_one]
  rfl

theorem mem_leading_mul_iff :
    w ∈ language .leading * l ↔ w ∈ l ∨ ∃ u v, v ∈ l ∧ w = u ++ slash :: v := by
  rw [language, add_mul, one_mul, Language.mem_add, mul_assoc, Language.mem_mul]
  refine or_congr_right ?_
  constructor
  · rintro ⟨u, -, x, hx, rfl⟩
    obtain ⟨v, hv, rfl⟩ := mem_slashLanguage_mul_iff.1 hx
    exact ⟨u, v, hv, rfl⟩
  · rintro ⟨u, v, hv, rfl⟩
    exact ⟨u, fun _ _ => rfl, _, mem_slashLanguage_mul_iff.2 ⟨v, hv, rfl⟩, rfl⟩

theorem mem_language_trailing_iff : w ∈ language .trailing ↔ ∃ v, w = slash :: v := by
  have htrailing : language .trailing = slashLanguage * bytesOf fun _ => true := by
    rw [language]
    rfl
  rw [htrailing, mem_slashLanguage_mul_iff]
  exact ⟨fun ⟨v, _, hv⟩ => ⟨v, hv⟩, fun ⟨v, hv⟩ => ⟨v, fun _ _ => rfl, hv⟩⟩

theorem slash_notMem_utf8EncodeChar {c : Char} (hc : c ≠ '/') : slash ∉ String.utf8EncodeChar c := by
  rw [Utf8.mem_utf8EncodeChar_iff (by decide)]
  exact fun h => hc (Char.ext (UInt32.toNat_inj.1 h))

/-- The token of a character other than a slash has the texts without a slash that the character
    stands for. -/
theorem mem_language_ofChar_iff {c : Char} (hc : c ≠ '/') :
    w ∈ language (ofChar c) ↔ StandsFor c w ∧ slash ∉ w := by
  by_cases hstar : c = '*'
  · subst hstar
    rw [ofChar, if_pos rfl, language, standsFor_star_iff, true_and]
    constructor
    · exact fun h hslash => by simpa using h slash hslash
    · intro hslash b hb
      simpa using fun h : b = slash => hslash (h ▸ hb)
  · by_cases hany : c = '?'
    · subst hany
      rw [ofChar, if_neg hstar, if_pos rfl, language, standsFor_any_iff]
      constructor
      · rintro ⟨b, hb, rfl⟩
        exact ⟨⟨b, rfl⟩, fun hslash => by simp [List.mem_singleton.1 hslash] at hb⟩
      · rintro ⟨⟨b, rfl⟩, hslash⟩
        exact ⟨b, by simpa using fun h : b = slash => hslash (by simp [h]), rfl⟩
    · rw [ofChar, if_neg hstar, if_neg hany, language, standsFor_self_iff hstar hany]
      constructor
      · rintro rfl
        exact ⟨rfl, slash_notMem_utf8EncodeChar hc⟩
      · exact fun h => h.1

/-- A segment has the texts without a slash that it fits. -/
theorem mem_seqLanguage_map_ofChar_iff {p : Segment} (hp : '/' ∉ p) :
    w ∈ seqLanguage (p.map ofChar) ↔ Fits p w ∧ slash ∉ w := by
  induction p generalizing w with
  | nil =>
    rw [List.map_nil, seqLanguage, Language.mem_one, fits_nil_iff, iff_self_and]
    rintro rfl
    exact List.not_mem_nil
  | cons c p ih =>
    rw [List.mem_cons, not_or] at hp
    rw [List.map_cons, seqLanguage, Language.mem_mul, fits_cons_iff]
    constructor
    · rintro ⟨taken, htaken, rest, hrest, rfl⟩
      rw [mem_language_ofChar_iff (Ne.symm hp.1)] at htaken
      rw [ih hp.2] at hrest
      exact ⟨⟨taken, rest, rfl, htaken.1, hrest.1⟩, by simp [htaken.2, hrest.2]⟩
    · rintro ⟨⟨taken, rest, rfl, hc, hrest⟩, hslash⟩
      rw [List.mem_append, not_or] at hslash
      exact ⟨_, (mem_language_ofChar_iff (Ne.symm hp.1)).2 ⟨hc, hslash.1⟩, _,
        (ih hp.2).2 ⟨hrest, hslash.2⟩, rfl⟩

/-! ### Texts after a gap -/

namespace Gap

/-- The segments of two stars that a gap stands for. -/
def stars (gap : Gap) : List Segment :=
  if gap.wide then [twoStars] else []

/-- The gap behind a slash that is put in front of everything. -/
def afterSlash (gap : Gap) : Gap :=
  { gap with initial := false }

end Gap

/-- A slash in front of everything is all that a gap inside has more than the one at the start. -/
theorem seqLanguage_tokens_append (wide : Bool) (ts : List Token) :
    seqLanguage ((⟨false, wide⟩ : Gap).tokens ++ ts) =
      slashLanguage * seqLanguage ((⟨true, wide⟩ : Gap).tokens ++ ts) := by
  cases wide with
  | false =>
    show seqLanguage (.literal '/' :: ts) = slashLanguage * seqLanguage ts
    rw [seqLanguage, language_literal_slash]
  | true =>
    show seqLanguage (.spanning :: ts) = slashLanguage * seqLanguage (.leading :: ts)
    rw [seqLanguage, seqLanguage, language_spanning, mul_assoc]

/-- What is read after a slash begins with it. -/
theorem isBroken_of_mem_tokens_append {gap : Gap} (hgap : gap.initial = false) {ts : List Token}
    (hw : w ∈ seqLanguage (gap.tokens ++ ts)) : IsBroken w := by
  obtain ⟨initial, wide⟩ := gap
  obtain rfl : initial = false := hgap
  rw [seqLanguage_tokens_append] at hw
  obtain ⟨v, -, rfl⟩ := mem_slashLanguage_mul_iff.1 hw
  simp [IsBroken]

theorem isBroken_of_mem_read {gap : Gap} (hgap : gap.initial = false) {segs : List Segment}
    (hw : w ∈ seqLanguage (gap.read segs)) : IsBroken w := by
  fun_induction Gap.read gap segs with
  | case1 gap =>
    rw [← List.append_nil gap.tokens] at hw
    exact isBroken_of_mem_tokens_append hgap hw
  | case2 gap =>
    have hclose : gap.close = .trailing := by simp [Gap.close, hgap]
    rw [hclose, seqLanguage, seqLanguage, mul_one] at hw
    obtain ⟨v, rfl⟩ := mem_language_trailing_iff.1 hw
    simp [IsBroken]
  | case3 gap p hp => exact isBroken_of_mem_tokens_append hgap hw
  | case4 gap q ps ih => exact ih hgap hw
  | case5 gap p q ps hp ih =>
    rw [List.append_assoc] at hw
    exact isBroken_of_mem_tokens_append hgap hw

variable {ss : List (List UInt8)}

/-- A spanning token leaves out some of the first segments. -/
theorem slashed_mem_spanning_iff (hss : ∀ s ∈ ss, slash ∉ s) (ts : List Token) :
    slashed ss ∈ seqLanguage (.spanning :: ts) ↔
      ∃ taken rest, ss = taken ++ rest ∧ slashed rest ∈ seqLanguage (.literal '/' :: ts) := by
  rw [seqLanguage, seqLanguage, language_literal_slash, language_spanning, mul_assoc]
  constructor
  · intro h
    obtain ⟨v, hv, heq⟩ := mem_slashLanguage_mul_iff.1 h
    rcases mem_leading_mul_iff.1 hv with hv | ⟨u, x, hx, rfl⟩
    · exact ⟨[], ss, rfl, mem_slashLanguage_mul_iff.2 ⟨v, hv, heq⟩⟩
    · obtain ⟨taken, rest, hcat, hrest⟩ := exists_of_slashed_eq_append (u := slash :: u) hss heq
      exact ⟨taken, rest, hcat, mem_slashLanguage_mul_iff.2 ⟨x, hx, hrest⟩⟩
  · rintro ⟨taken, rest, rfl, h⟩
    obtain ⟨x, hx, hrest⟩ := mem_slashLanguage_mul_iff.1 h
    rw [slashed_append, hrest]
    cases taken with
    | nil => exact cons_mem_slashLanguage_mul_iff.2 (mem_leading_mul_iff.2 (.inl hx))
    | cons s taken =>
      refine cons_mem_slashLanguage_mul_iff.2 (mem_leading_mul_iff.2 (.inr ⟨_, x, hx, rfl⟩))

/-- A segment takes the first one. -/
theorem slashed_mem_segment_iff {p : Segment} (hp : '/' ∉ p) {ts : List Token}
    (hts : ∀ v ∈ seqLanguage ts, IsBroken v) (hss : ∀ s ∈ ss, slash ∉ s) :
    slashed ss ∈ seqLanguage (.literal '/' :: (p.map ofChar ++ ts)) ↔
      ∃ s rest, ss = s :: rest ∧ Fits p s ∧ slashed rest ∈ seqLanguage ts := by
  rw [seqLanguage, language_literal_slash, seqLanguage_append]
  constructor
  · intro h
    obtain ⟨w, hw, heq⟩ := mem_slashLanguage_mul_iff.1 h
    obtain ⟨t, ht, v, hv, rfl⟩ := Language.mem_mul.1 hw
    rw [mem_seqLanguage_map_ofChar_iff hp] at ht
    cases ss with
    | nil => cases heq
    | cons s rest =>
      rw [slashed_cons, List.cons.injEq, append_eq_append_iff_of_isBroken
        (hss s List.mem_cons_self) ht.2 (isBroken_slashed rest) (hts v hv)] at heq
      obtain ⟨-, rfl, rfl⟩ := heq
      exact ⟨s, rest, rfl, ht.1, hv⟩
  · rintro ⟨s, rest, rfl, hs, hrest⟩
    have hslash := hss s List.mem_cons_self
    exact cons_mem_slashLanguage_mul_iff.2
      ⟨s, (mem_seqLanguage_map_ofChar_iff hp).2 ⟨hs, hslash⟩, _, hrest, rfl⟩

/-- A segment after a gap takes the first one, or one behind those that the gap takes. -/
theorem slashed_mem_tokens_append_iff {gap : Gap} (hgap : gap.initial = false) {p : Segment}
    (hslash : '/' ∉ p) (hp : p ≠ twoStars) {ts : List Token} {ps : List Segment}
    (hts : ∀ v ∈ seqLanguage ts, IsBroken v)
    (hps : ∀ ss, (∀ s ∈ ss, Glob.slash ∉ s) → (slashed ss ∈ seqLanguage ts ↔ Aligns ps ss))
    (hss : ∀ s ∈ ss, Glob.slash ∉ s) :
    slashed ss ∈ seqLanguage (gap.tokens ++ (p.map ofChar ++ ts)) ↔
      Aligns (gap.stars ++ p :: ps) ss := by
  have hone : ∀ ss, (∀ s ∈ ss, Glob.slash ∉ s) →
      (slashed ss ∈ seqLanguage (.literal '/' :: (p.map ofChar ++ ts)) ↔ Aligns (p :: ps) ss) := by
    intro ss hss
    rw [slashed_mem_segment_iff hslash hts hss, aligns_cons_iff hp]
    refine exists₂_congr fun s rest => and_congr_right fun hcat => and_congr_right fun _ => ?_
    exact hps rest fun t ht => hss t (hcat ▸ List.mem_cons_of_mem s ht)
  obtain ⟨initial, _ | _⟩ := gap
  · obtain rfl : initial = false := hgap
    exact hone ss hss
  · obtain rfl : initial = false := hgap
    show slashed ss ∈ seqLanguage (.spanning :: (p.map ofChar ++ ts)) ↔
      Aligns (twoStars :: p :: ps) ss
    rw [slashed_mem_spanning_iff hss, aligns_twoStars_iff]
    refine exists₂_congr fun taken rest => and_congr_right fun hcat => ?_
    rw [hone rest fun t ht => hss t (hcat ▸ List.mem_append_right taken ht)]
    simp

theorem aligns_stars_append_iff (gap : Gap) (ps : List Segment) :
    Aligns (gap.stars ++ twoStars :: ps) ss ↔ Aligns (twoStars :: ps) ss := by
  obtain ⟨initial, _ | _⟩ := gap
  · exact Iff.rfl
  · exact aligns_twoStars_twoStars_iff

/-- The tokens after a gap have the texts of the segments with which the segments after it are
    aligned. -/
theorem slashed_mem_seqLanguage_read_iff {gap : Gap} (hgap : gap.initial = false)
    {segs : List Segment} (hne : segs ≠ []) (hsegs : ∀ p ∈ segs, '/' ∉ p)
    (hss : ∀ s ∈ ss, Glob.slash ∉ s) :
    slashed ss ∈ seqLanguage (gap.read segs) ↔ Aligns (gap.stars ++ segs) ss := by
  fun_induction Gap.read gap segs generalizing ss with
  | case1 gap => exact absurd rfl hne
  | case2 gap =>
    have hclose : gap.close = .trailing := by simp [Gap.close, hgap]
    have hslashed : (∃ v, slashed ss = Glob.slash :: v) ↔ ss ≠ [] := by
      cases ss <;> simp
    rw [hclose, seqLanguage, seqLanguage, mul_one, mem_language_trailing_iff, hslashed,
      aligns_stars_append_iff, aligns_last_iff]
  | case3 gap p hp =>
    have hnil : ∀ ss, (∀ s ∈ ss, Glob.slash ∉ s) → (slashed ss ∈ seqLanguage [] ↔ Aligns [] ss) := by
      intro ss _
      rw [seqLanguage, Language.mem_one, aligns_nil_iff]
      cases ss <;> simp
    have hbroken : ∀ v ∈ seqLanguage [], IsBroken v := by
      intro v hv
      rw [seqLanguage, Language.mem_one] at hv
      simp [hv, IsBroken]
    have hread := slashed_mem_tokens_append_iff hgap (hsegs p (by simp)) hp hbroken hnil hss
    rwa [List.append_nil] at hread
  | case4 gap q ps ih =>
    rw [ih hgap (by simp) (List.forall_mem_cons.1 hsegs).2 hss, aligns_stars_append_iff]
    rfl
  | case5 gap p q ps hp ih =>
    rw [List.forall_mem_cons] at hsegs
    rw [List.append_assoc]
    have hbroken : ∀ v ∈ seqLanguage (Gap.slash.read (q :: ps)), IsBroken v :=
      fun v hv => isBroken_of_mem_read rfl hv
    refine slashed_mem_tokens_append_iff hgap hsegs.1 hp hbroken (fun ss hss => ?_) hss
    exact ih rfl (by simp) hsegs.2 hss

/-! ### Texts of whole patterns -/

theorem tokens_append_ne_leading (gap : Gap) {p : Segment} (hp : p ≠ []) (ts : List Token) :
    gap.tokens ++ (p.map ofChar ++ ts) ≠ [.leading] := by
  obtain ⟨c, p, rfl⟩ := List.exists_cons_of_ne_nil hp
  have hc : ofChar c ≠ .leading := by
    rw [ofChar]
    split_ifs <;> simp
  obtain ⟨_ | _, _ | _⟩ := gap <;> simp [Gap.tokens, hc]

/-- After a gap at the start, tokens accept what they have with a slash in front. -/
theorem accepts_read_iff {gap : Gap} (hgap : gap.initial = true) {segs : List Segment}
    (hne : segs ≠ []) (hsegs : ∀ p ∈ segs, p ≠ []) (w : List UInt8) :
    accepts (gap.read segs) w = true ↔
      Glob.slash :: w ∈ seqLanguage (gap.afterSlash.read segs) := by
  have hread : ∀ {gap : Gap} {p : Segment}, gap.initial = true → p ≠ [] → ∀ ts : List Token,
      ((gap.tokens ++ (p.map ofChar ++ ts) = [.leading] ∨
          w ∈ seqLanguage (gap.tokens ++ (p.map ofChar ++ ts))) ↔
        Glob.slash :: w ∈ seqLanguage (gap.afterSlash.tokens ++ (p.map ofChar ++ ts))) := by
    intro gap p hgap hp ts
    obtain ⟨initial, wide⟩ := gap
    obtain rfl : initial = true := hgap
    rw [or_iff_right (tokens_append_ne_leading _ hp ts), Gap.afterSlash, seqLanguage_tokens_append,
      cons_mem_slashLanguage_mul_iff]
  rw [accepts_iff_mem_language]
  fun_induction Gap.read gap segs with
  | case1 gap => exact absurd rfl hne
  | case2 gap =>
    -- two stars alone accept everything, which is what they have behind a slash
    have hclose : gap.close = .leading := by simp [Gap.close, hgap]
    have htrailing : Glob.slash :: w ∈ seqLanguage [.trailing] := by
      rw [seqLanguage, seqLanguage, mul_one, mem_language_trailing_iff]
      exact ⟨w, rfl⟩
    rw [Gap.read, if_pos rfl, hclose]
    exact iff_of_true (.inl rfl) htrailing
  | case3 gap p hp =>
    have hone := hread hgap (hsegs p (by simp)) []
    rw [List.append_nil] at hone
    rwa [Gap.read, if_neg hp]
  | case4 gap q ps ih =>
    rw [Gap.read, if_pos rfl]
    exact ih hgap (by simp) (List.forall_mem_cons.1 hsegs).2
  | case5 gap p q ps hp =>
    rw [Gap.read, if_neg hp, List.append_assoc, List.append_assoc]
    exact hread hgap (hsegs p List.mem_cons_self) _

end Token

/-! ### Patterns against paths -/

theorem slashed_map_encodeChars {segs : List Segment} (hne : segs ≠ []) :
    slashed (segs.map Utf8.encodeChars) = slash :: Utf8.encodeChars (Path.unsegments segs) := by
  induction segs with
  | nil => exact absurd rfl hne
  | cons s segs ih =>
    cases segs with
    | nil => simp [Path.unsegments]
    | cons t segs =>
      have hslash : Utf8.encodeChars ['/'] = [slash] := rfl
      rw [List.map_cons, slashed_cons, ih (by simp), Path.unsegments, Path.unsegments,
        List.intercalate_cons_cons, Utf8.encodeChars_append, Utf8.encodeChars_append, hslash,
        List.append_assoc, List.singleton_append]

/-- The bytes of the segments of a path. -/
def byteSegments (path : String) : List (List UInt8) :=
  (Path.segments path.toList).map Utf8.encodeChars

theorem slashed_byteSegments (path : String) :
    slashed (byteSegments path) = slash :: Utf8.encode path := by
  rw [byteSegments, slashed_map_encodeChars (Path.segments_ne_nil _), Path.unsegments_segments]
  rfl

theorem slash_notMem_of_mem_byteSegments {path : String} :
    ∀ s ∈ byteSegments path, slash ∉ s := by
  intro s hs
  obtain ⟨seg, hseg, rfl⟩ := List.mem_map.1 hs
  rw [List.mem_flatMap]
  rintro ⟨c, hc, hslash⟩
  have hc' : c ≠ '/' := fun h => Path.slash_notMem_of_mem_segments hseg (h ▸ hc)
  exact Token.slash_notMem_utf8EncodeChar hc' hslash

variable {pattern : String}

/-- The tokens of a pattern accept the paths that its segments can be aligned with. -/
theorem accepts_iff_aligns (hsegs : ∀ p ∈ Path.segments pattern.toList, p ≠ []) (subject : String) :
    Token.accepts (Token.Gap.start.read (Path.segments pattern.toList)) (Utf8.encode subject) = true ↔
      Aligns (Path.segments pattern.toList) (byteSegments subject) := by
  rw [Token.accepts_read_iff rfl (Path.segments_ne_nil _) hsegs, ← slashed_byteSegments]
  exact Token.slashed_mem_seqLanguage_read_iff rfl (Path.segments_ne_nil _)
    (fun p hp => Path.slash_notMem_of_mem_segments hp) slash_notMem_of_mem_byteSegments

/-- A pattern without groups, classes and escapes, none of whose segments is empty, is read, and
    matches the paths that its segments can be aligned with. -/
theorem exists_compileAll_and_first?_iff_aligns (hsimple : ∀ c ∈ pattern.toList, IsSimple c)
    (hsegs : ∀ p ∈ Path.segments pattern.toList, p ≠ []) :
    ∃ g, (∀ side, compileAll side [pattern] = .ok [g]) ∧
      ∀ subject, first? [g] [subject] = some g ↔
        Aligns (Path.segments pattern.toList) (byteSegments subject) := by
  have hcompile : compile pattern =
      .ok ⟨pattern, Token.Gap.start.read (Path.segments pattern.toList)⟩ := by
    rw [compile_eq, Token.ofString_of_isSimple hsimple]
    rfl
  refine ⟨_, fun side => (compileAll_eq_ok_iff side).2 (.cons hcompile .nil), fun subject => ?_⟩
  rw [← accepts_iff_aligns hsegs]
  simp [first?, acceptsAny, accepts]

theorem exists_compileAll_and_first?_sources :
    (∀ c ∈ "src/**/?*.rs".toList, IsSimple c) ∧
      (∀ p ∈ Path.segments "src/**/?*.rs".toList, p ≠ []) ∧
      ∃ g, compileAll .inclusion ["src/**/?*.rs"] = .ok [g] ∧
        first? [g] ["src/a/b/é.rs"] = some g ∧ first? [g] ["src/a/.rs"] ≠ some g := by
  have hall : ("src/**/?*.rs".toList.all fun c => decide (IsSimple c)) = true := by decide
  have hsimple : ∀ c ∈ "src/**/?*.rs".toList, IsSimple c :=
    fun c hc => of_decide_eq_true (List.all_eq_true.1 hall c hc)
  have hsegs : ∀ p ∈ Path.segments "src/**/?*.rs".toList, p ≠ [] := by decide
  obtain ⟨g, hread, hfirst⟩ := exists_compileAll_and_first?_iff_aligns hsimple hsegs
  refine ⟨hsimple, hsegs, g, hread .inclusion, ?_, ?_⟩
  · rw [hfirst]
    decide +kernel
  · rw [Ne, hfirst]
    decide +kernel

end PathGuard.Glob
