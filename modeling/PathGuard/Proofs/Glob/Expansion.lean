import PathGuard.Proofs.Glob.Flat
import PathGuard.Proofs.Glob.Reading
import PathGuard.Proofs.Rules.Matching

/-!
# Groups and their expansions

A pattern with groups stands for the patterns that come of choosing a branch in each group. It is built
of pieces, characters and groups of sequences of pieces, and each piece is read to one token: a group to
a token that holds the tokens of its branches. The language of such a token is the sum of those of its
branches, and products distribute over sums, so that the texts of the pattern are those of its expansions.

## Main definitions

- `Piece`: the pieces of a pattern with groups
- `Piece.IsProper`, `Piece.AllProper`: pieces that are read as they are meant
- `Piece.expand`, `Piece.expandSeq`: the texts that come of choosing branches

## Main results

- `Piece.ofString_textSeq`: the tokens of a pattern of pieces are those of its pieces
- `Piece.seqLanguage_tokens`: the texts of pieces are those of their expansions
- `exists_compileAll_and_first?_iff_expand`: a pattern matches what its expansions match
-/

namespace PathGuard.Glob

/-- A piece of a pattern: a character, or a group with its first branch and the others. -/
inductive Piece where
  | char (c : Char)
  | group (first : List Piece) (more : List (List Piece))

namespace Piece

mutual

/-- The text of a piece. -/
def text : Piece → List Char
  | char c => [c]
  | group first more => '\x7b' :: (textSeq first ++ (textMore more ++ ['\x7d']))

def textSeq : List Piece → List Char
  | [] => []
  | p :: ps => p.text ++ textSeq ps

/-- The text of branches, each of them after a comma. -/
def textMore : List (List Piece) → List Char
  | [] => []
  | ps :: more => ',' :: (textSeq ps ++ textMore more)

end

mutual

/-- The texts that come of choosing a branch in each group of a piece. -/
def expand : Piece → List (List Char)
  | char c => [[c]]
  | group first more => expandSeq first ++ expandMore more

def expandSeq : List Piece → List (List Char)
  | [] => [[]]
  | p :: ps => p.expand.flatMap fun e => (expandSeq ps).map (e ++ ·)

def expandMore : List (List Piece) → List (List Char)
  | [] => []
  | ps :: more => expandSeq ps ++ expandMore more

end

mutual

/-- A piece that is read as it is meant: its characters begin no class, group or escape, within groups
    they are no commas, and no branch is empty. -/
def IsProper (inside : Bool) : Piece → Prop
  | char c => IsSimple c ∧ (inside = true → c ≠ ',')
  | group first more => first ≠ [] ∧ AllProper true first ∧ MoreProper more

def AllProper (inside : Bool) : List Piece → Prop
  | [] => True
  | p :: ps => p.IsProper inside ∧ AllProper inside ps

def MoreProper : List (List Piece) → Prop
  | [] => True
  | ps :: more => ps ≠ [] ∧ AllProper true ps ∧ MoreProper more

end

mutual

def token : Piece → Token
  | char c => .ofChar c
  | group first more => .group (tokens first :: tokensMore more)

def tokens : List Piece → List Token
  | [] => []
  | p :: ps => p.token :: tokens ps

def tokensMore : List (List Piece) → List (List Token)
  | [] => []
  | ps :: more => tokens ps :: tokensMore more

end

/-! ### Scanning -/

/-- The lexeme of a character that is neither a bracket nor a backslash, where stars stand apart. -/
def lexeme (c : Char) : Lexeme :=
  match Lexeme.begin c with
  | .inl l => l
  | .inr _ => .star

theorem begin_eq {c : Char} (hbracket : c ≠ '[') (hescape : c ≠ '\\') (hstar : c ≠ '*') :
    Lexeme.begin c = .inl (lexeme c) := by
  unfold lexeme Lexeme.begin
  split <;> simp_all

theorem lexeme_of_isSimple {c : Char} (hc : IsSimple c) :
    lexeme c = if c = '*' then .star else .ofSimple c := by
  split_ifs with hstar
  · rw [hstar]
    rfl
  · rw [lexeme, Lexeme.begin_of_isSimple hc hstar]

theorem ne_of_isSimple {c : Char} (hc : IsSimple c) : c ≠ '[' ∧ c ≠ '\\' := by
  simp only [IsSimple, List.mem_cons, List.not_mem_nil, or_false, not_or] at hc
  exact ⟨hc.1, hc.2.1⟩

/-- Text without classes and escapes, in which stars stand apart, is scanned character by character. -/
theorem scan_eq_map_lexeme {cs : List Char} (hcs : ∀ c ∈ cs, c ≠ '[' ∧ c ≠ '\\')
    (hstars : ¬ ['*', '*'] <:+: cs) : Lexeme.scan .plain cs = cs.map lexeme := by
  induction cs with
  | nil => rfl
  | cons c cs ih =>
    rw [List.forall_mem_cons] at hcs
    have hlater : ¬ ['*', '*'] <:+: cs := fun h => hstars (h.trans (List.infix_cons (List.infix_refl cs)))
    rw [List.map_cons, ← ih hcs.2 hlater]
    by_cases hstar : c = '*'
    · subst hstar
      refine Lexeme.scan_starred_of_head?_ne fun hhead => hstars ?_
      obtain ⟨rest, rfl⟩ := List.head?_eq_some_iff.1 hhead
      exact (List.prefix_append ['*', '*'] rest).isInfix
    · rw [Lexeme.scan, begin_eq hcs.1.1 hcs.1.2 hstar]

mutual

theorem ne_of_mem_text {inside : Bool} :
    ∀ {p : Piece}, p.IsProper inside → ∀ c ∈ p.text, c ≠ '[' ∧ c ≠ '\\'
  | char d, hp => by
    rw [text, List.forall_mem_singleton]
    exact ne_of_isSimple hp.1
  | group first more, hp => by
    rw [text, List.forall_mem_cons, List.forall_mem_append, List.forall_mem_append,
      List.forall_mem_singleton]
    exact ⟨by decide, ne_of_mem_textSeq hp.2.1, ne_of_mem_textMore hp.2.2, by decide⟩

theorem ne_of_mem_textSeq {inside : Bool} :
    ∀ {ps : List Piece}, AllProper inside ps → ∀ c ∈ textSeq ps, c ≠ '[' ∧ c ≠ '\\'
  | [], _ => by
    rw [textSeq]
    exact nofun
  | p :: ps, hps => by
    rw [textSeq, List.forall_mem_append]
    exact ⟨ne_of_mem_text hps.1, ne_of_mem_textSeq hps.2⟩

theorem ne_of_mem_textMore :
    ∀ {more : List (List Piece)}, MoreProper more → ∀ c ∈ textMore more, c ≠ '[' ∧ c ≠ '\\'
  | [], _ => by
    rw [textMore]
    exact nofun
  | ps :: more, hmore => by
    rw [textMore, List.forall_mem_cons, List.forall_mem_append]
    exact ⟨by decide, ne_of_mem_textSeq hmore.2.1, ne_of_mem_textMore hmore.2.2⟩

end

/-! ### Reading -/

variable {inside : Bool} {d : Token.Draft}

/-- A character adds its token. Outside of groups this holds of commas too. -/
theorem build_char {c : Char} (hc : (char c).IsProper inside) (hd : inside = false → d.frames = [])
    (rest : List Lexeme) :
    Token.build d (lexeme c :: rest) = Token.build ((d.add (.ofChar c)).seen (some c)) rest := by
  obtain ⟨hsimple, hcomma⟩ := hc
  rw [lexeme_of_isSimple hsimple]
  by_cases hstar : c = '*'
  · rw [if_pos hstar, hstar]
    exact Token.build_star d rest
  · rw [if_neg hstar]
    cases inside with
    | false => exact Token.build_simple (hd rfl) hstar rest
    | true =>
      have hcomma := hcomma rfl
      by_cases hany : c = '?'
      · rw [hany]
        rfl
      · simp [Lexeme.ofSimple, plainLexeme, Token.ofChar, hany, hcomma, hstar, Token.build,
          Token.Draft.read, Lexeme.lastChar]

theorem map_lexeme_text_group (first : List Piece) (more : List (List Piece)) :
    (group first more).text.map lexeme =
      .openGroup :: ((textSeq first).map lexeme ++ ((textMore more).map lexeme ++ [.closeGroup])) := by
  rw [text, List.map_cons, List.map_append, List.map_append]
  rfl

theorem map_lexeme_textMore_cons (ps : List Piece) (more : List (List Piece)) :
    (textMore (ps :: more)).map lexeme =
      .comma :: ((textSeq ps).map lexeme ++ (textMore more).map lexeme) := by
  rw [textMore, List.map_cons, List.map_append]
  rfl

-- Only two stars ask for the last character, so the lemmas leave open which one has been seen last.
mutual

theorem exists_build_text :
    ∀ {p : Piece} {inside : Bool} {d : Token.Draft}, p.IsProper inside →
      (inside = false → d.frames = []) → ∀ rest, ∃ last,
        Token.build d (p.text.map lexeme ++ rest) =
          Token.build ⟨p.token :: d.branch, d.frames, last⟩ rest
  | char c, _, _, hp, hd, rest => ⟨some c, build_char hp hd rest⟩
  | group first more, _, d, ⟨_, hfirst, hmore⟩, _, rest => by
    obtain ⟨last, hseq⟩ := exists_build_textSeq (d := d.openGroup.seen (some '\x7b')) hfirst nofun
      ((textMore more).map lexeme ++ .closeGroup :: rest)
    obtain ⟨last', hothers⟩ :=
      exists_build_textMore hmore (tokens first).reverse [] d.branch d.frames last rest
    refine ⟨last', ?_⟩
    rw [map_lexeme_text_group, List.cons_append, List.append_assoc, List.append_assoc]
    simp only [Token.build, Token.Draft.read, Lexeme.lastChar]
    rw [List.singleton_append, hseq]
    simpa [Token.Draft.openGroup, Token.Draft.seen, token] using hothers

theorem exists_build_textSeq :
    ∀ {ps : List Piece} {inside : Bool} {d : Token.Draft}, AllProper inside ps →
      (inside = false → d.frames = []) → ∀ rest, ∃ last,
        Token.build d ((textSeq ps).map lexeme ++ rest) =
          Token.build ⟨(tokens ps).reverse ++ d.branch, d.frames, last⟩ rest
  | [], _, d, _, _, _ => ⟨d.last, rfl⟩
  | p :: ps, _, d, ⟨hp, hps⟩, hd, rest => by
    obtain ⟨last, hone⟩ := exists_build_text hp hd ((textSeq ps).map lexeme ++ rest)
    obtain ⟨last', hothers⟩ :=
      exists_build_textSeq (d := ⟨p.token :: d.branch, d.frames, last⟩) hps hd rest
    refine ⟨last', ?_⟩
    rw [textSeq, List.map_append, List.append_assoc, hone, hothers, tokens, List.reverse_cons,
      List.append_assoc]
    rfl

theorem exists_build_textMore :
    ∀ {more : List (List Piece)}, MoreProper more → ∀ branch done outer frames last rest, ∃ last',
      Token.build ⟨branch, ⟨done, outer⟩ :: frames, last⟩
          ((textMore more).map lexeme ++ .closeGroup :: rest) =
        Token.build ⟨.group ((branch.reverse :: done).reverse ++ tokensMore more) :: outer, frames,
          last'⟩ rest
  | [], _, _, _, _, _, _, _ => by
    refine ⟨some '\x7d', ?_⟩
    simp [textMore, tokensMore, Token.build, Token.Draft.read, Token.Draft.closeGroup,
      Token.Draft.seen, Lexeme.lastChar]
  | ps :: more, ⟨_, hps, hmore⟩, branch, done, outer, frames, last, rest => by
    obtain ⟨last', hseq⟩ := exists_build_textSeq
      (d := ⟨[], ⟨branch.reverse :: done, outer⟩ :: frames, some ','⟩) hps nofun
      ((textMore more).map lexeme ++ .closeGroup :: rest)
    obtain ⟨last'', hothers⟩ :=
      exists_build_textMore hmore (tokens ps).reverse (branch.reverse :: done) outer frames last' rest
    refine ⟨last'', ?_⟩
    rw [map_lexeme_textMore_cons, List.cons_append, List.append_assoc]
    simp only [Token.build, Token.Draft.read, Lexeme.lastChar, Token.Draft.nextBranch,
      Token.Draft.seen]
    rw [hseq, List.append_nil, hothers]
    simp [tokensMore]

end

/-- Pieces are read to their tokens. -/
theorem ofString_textSeq {ps : List Piece} (hps : AllProper false ps)
    (hstars : ¬ ['*', '*'] <:+: textSeq ps) :
    Token.ofString (String.ofList (textSeq ps)) = .ok (tokens ps) := by
  obtain ⟨last, hbuild⟩ := exists_build_textSeq (d := .empty) hps (fun _ => rfl) []
  rw [Token.ofString, Lexeme.ofString, String.toList_ofList,
    scan_eq_map_lexeme (ne_of_mem_textSeq hps) hstars]
  rw [List.append_nil] at hbuild
  rw [hbuild, Token.build_nil rfl]
  simp [Token.Draft.empty]

/-! ### Languages -/

mutual

theorem isVoid_token : ∀ {p : Piece} {inside : Bool}, p.IsProper inside → p.token.isVoid = false
  | char c, _, _ => by
    rw [token, Token.ofChar]
    split_ifs <;> rfl
  | group first more, _, ⟨hne, hfirst, _⟩ => by
    rw [token, Token.isVoid, Token.allVoid, isVoidSeq_tokens hne hfirst, Bool.false_and]

theorem isVoidSeq_tokens : ∀ {ps : List Piece} {inside : Bool}, ps ≠ [] → AllProper inside ps →
    Token.isVoidSeq (tokens ps) = false
  | [], _, hne, _ => absurd rfl hne
  | p :: ps, _, _, ⟨hp, _⟩ => by
    rw [tokens, Token.isVoidSeq, isVoid_token hp, Bool.false_and]

end

/-- The texts that patterns without groups match, character by character. -/
def languageOf (es : List (List Char)) : Language UInt8 :=
  {w | ∃ e ∈ es, w ∈ Token.seqLanguage (e.map Token.ofChar)}

variable {es fs : List (List Char)} {w : List UInt8}

theorem mem_languageOf_iff :
    w ∈ languageOf es ↔ ∃ e ∈ es, w ∈ Token.seqLanguage (e.map Token.ofChar) :=
  Iff.rfl

theorem languageOf_nil : languageOf [] = 0 := by
  ext w
  simp [mem_languageOf_iff, Language.notMem_zero]

theorem languageOf_singleton (e : List Char) :
    languageOf [e] = Token.seqLanguage (e.map Token.ofChar) := by
  ext w
  simp [mem_languageOf_iff]

theorem languageOf_append : languageOf (es ++ fs) = languageOf es + languageOf fs := by
  ext w
  simp [mem_languageOf_iff, Language.mem_add, or_and_right, exists_or]

/-- Where patterns are put together in all ways, so are the texts that they match. -/
theorem languageOf_flatMap :
    languageOf (es.flatMap fun e => fs.map (e ++ ·)) = languageOf es * languageOf fs := by
  ext w
  simp only [mem_languageOf_iff, Language.mem_mul, List.mem_flatMap, List.mem_map]
  constructor
  · rintro ⟨-, ⟨e, he, f, hf, rfl⟩, hw⟩
    rw [List.map_append, Token.seqLanguage_append] at hw
    obtain ⟨u, hu, v, hv, rfl⟩ := hw
    exact ⟨u, ⟨e, he, hu⟩, v, ⟨f, hf, hv⟩, rfl⟩
  · rintro ⟨u, ⟨e, he, hu⟩, v, ⟨f, hf, hv⟩, rfl⟩
    refine ⟨e ++ f, ⟨e, he, f, hf, rfl⟩, ?_⟩
    rw [List.map_append, Token.seqLanguage_append]
    exact ⟨u, hu, v, hv, rfl⟩

mutual

theorem language_token : ∀ {p : Piece} {inside : Bool}, p.IsProper inside →
    Token.language p.token = languageOf p.expand
  | char c, _, _ => by
    rw [token, expand, languageOf_singleton, List.map_singleton, Token.seqLanguage, Token.seqLanguage,
      mul_one]
  | group first more, _, ⟨hne, hfirst, hmore⟩ => by
    have hvoid := isVoidSeq_tokens hne hfirst
    rw [token, expand, languageOf_append, Token.language, Token.allVoid, Token.anyLanguage, hvoid,
      Bool.false_and, if_neg (by decide), if_neg (by decide), seqLanguage_tokens hfirst,
      anyLanguage_tokensMore hmore]

theorem seqLanguage_tokens : ∀ {ps : List Piece} {inside : Bool}, AllProper inside ps →
    Token.seqLanguage (tokens ps) = languageOf (expandSeq ps)
  | [], _, _ => by
    rw [tokens, expandSeq, languageOf_singleton, List.map_nil]
  | p :: ps, _, ⟨hp, hps⟩ => by
    rw [tokens, expandSeq, languageOf_flatMap, Token.seqLanguage, language_token hp,
      seqLanguage_tokens hps]

theorem anyLanguage_tokensMore : ∀ {more : List (List Piece)}, MoreProper more →
    Token.anyLanguage (tokensMore more) = languageOf (expandMore more)
  | [], _ => by
    rw [tokensMore, expandMore, Token.anyLanguage, languageOf_nil]
  | ps :: more, ⟨hne, hps, hmore⟩ => by
    rw [tokensMore, expandMore, languageOf_append, Token.anyLanguage, isVoidSeq_tokens hne hps,
      if_neg (by decide), seqLanguage_tokens hps, anyLanguage_tokensMore hmore]

end

/-! ### Expansions -/

mutual

theorem isSimple_of_mem_expand : ∀ {p : Piece} {inside : Bool}, p.IsProper inside →
    ∀ e ∈ p.expand, ∀ c ∈ e, IsSimple c
  | char c, _, ⟨hc, _⟩ => by
    rw [expand, List.forall_mem_singleton, List.forall_mem_singleton]
    exact hc
  | group first more, _, ⟨_, hfirst, hmore⟩ => by
    rw [expand, List.forall_mem_append]
    exact ⟨isSimple_of_mem_expandSeq hfirst, isSimple_of_mem_expandMore hmore⟩

theorem isSimple_of_mem_expandSeq : ∀ {ps : List Piece} {inside : Bool}, AllProper inside ps →
    ∀ e ∈ expandSeq ps, ∀ c ∈ e, IsSimple c
  | [], _, _ => by
    rw [expandSeq, List.forall_mem_singleton]
    exact nofun
  | p :: ps, _, ⟨hp, hps⟩ => by
    rw [expandSeq, List.forall_mem_flatMap]
    simp only [List.forall_mem_map, List.forall_mem_append]
    exact fun e he f hf => ⟨isSimple_of_mem_expand hp e he, isSimple_of_mem_expandSeq hps f hf⟩

theorem isSimple_of_mem_expandMore : ∀ {more : List (List Piece)}, MoreProper more →
    ∀ e ∈ expandMore more, ∀ c ∈ e, IsSimple c
  | [], _ => by
    rw [expandMore]
    exact nofun
  | ps :: more, ⟨_, hps, hmore⟩ => by
    rw [expandMore, List.forall_mem_append]
    exact ⟨isSimple_of_mem_expandSeq hps, isSimple_of_mem_expandMore hmore⟩

end

theorem token?_lexeme {c : Char} (hc : IsSimple c) : (lexeme c).token? = some (.ofChar c) := by
  rw [lexeme_of_isSimple hc, Token.ofChar, Lexeme.ofSimple, plainLexeme]
  split_ifs <;> simp_all [Lexeme.token?]

/-- A pattern without groups in which stars stand apart is read character by character. -/
theorem forall₂_token?_ofString {e : List Char} (he : ∀ c ∈ e, IsSimple c)
    (hstars : ¬ ['*', '*'] <:+: e) :
    List.Forall₂ (fun l t => l.token? = some t) (Lexeme.ofString (String.ofList e))
      (e.map Token.ofChar) := by
  rw [Lexeme.ofString, String.toList_ofList,
    scan_eq_map_lexeme (fun c hc => ne_of_isSimple (he c hc)) hstars, List.forall₂_map_left_iff,
    List.forall₂_map_right_iff, List.forall₂_same]
  exact fun c hc => token?_lexeme (he c hc)

theorem tokens_ne_leading : ∀ ps : List Piece, tokens ps ≠ [.leading]
  | [] => by
    rw [tokens]
    exact nofun
  | char c :: ps => by
    rw [tokens, token, Token.ofChar]
    split_ifs <;> simp
  | group first more :: ps => by
    rw [tokens, token]
    simp

variable {ps : List Piece}

/-- A pattern with groups matches what some of its expansions match. -/
theorem hits_textSeq_iff (hps : AllProper false ps) (hstars : ¬ ['*', '*'] <:+: textSeq ps)
    (hexpand : ∀ e ∈ expandSeq ps, ¬ ['*', '*'] <:+: e) (subject : String) :
    Hits (String.ofList (textSeq ps)) subject ↔
      ∃ e ∈ expandSeq ps, Hits (String.ofList e) subject := by
  rw [hits_iff_of_tokens (ofString_textSeq hps hstars), or_iff_right (tokens_ne_leading ps),
    seqLanguage_tokens hps, mem_languageOf_iff]
  refine exists_congr fun e => and_congr_right fun he => ?_
  have hread := forall₂_token?_ofString (isSimple_of_mem_expandSeq hps e he) (hexpand e he)
  rw [hits_iff_of_tokens (Token.ofString_of_forall₂ hread),
    or_iff_right (Token.ne_leading_of_forall₂ hread)]

theorem compiles_of_mem_expandSeq (hps : AllProper false ps)
    (hexpand : ∀ e ∈ expandSeq ps, ¬ ['*', '*'] <:+: e) :
    ∀ pattern ∈ (expandSeq ps).map String.ofList, Compiles pattern := by
  rw [List.forall_mem_map]
  exact fun e he => compiles_of_tokens (Token.ofString_of_forall₂
    (forall₂_token?_ofString (isSimple_of_mem_expandSeq hps e he) (hexpand e he)))

end Piece

/-- A pattern with groups is read, and so are its expansions. A list of the one pattern matches the
    subjects that the list of the expansions matches. -/
theorem exists_compileAll_and_first?_iff_expand {ps : List Piece} (hps : Piece.AllProper false ps)
    (hstars : ¬ ['*', '*'] <:+: Piece.textSeq ps)
    (hexpand : ∀ e ∈ Piece.expandSeq ps, ¬ ['*', '*'] <:+: e) :
    ∃ g gs,
      (∀ side, compileAll side [String.ofList (Piece.textSeq ps)] = .ok [g]) ∧
      (∀ side, compileAll side ((Piece.expandSeq ps).map String.ofList) = .ok gs) ∧
      ∀ subjects, (first? [g] subjects).isSome ↔ (first? gs subjects).isSome := by
  obtain ⟨g, hg⟩ := compiles_of_tokens (Piece.ofString_textSeq hps hstars)
  obtain ⟨gs, hgs⟩ := (exists_compileAll_iff .inclusion).2 (Piece.compiles_of_mem_expandSeq hps hexpand)
  rw [compileAll_eq_ok_iff] at hgs
  have hone : List.Forall₂ (fun pattern g => compile pattern = .ok g)
      [String.ofList (Piece.textSeq ps)] [g] := .cons hg .nil
  refine ⟨g, gs, fun side => (compileAll_eq_ok_iff side).2 hone,
    fun side => (compileAll_eq_ok_iff side).2 hgs, fun subjects => ?_⟩
  have hmiss : first? [g] subjects = none ↔ first? gs subjects = none := by
    rw [first?_eq_none_iff hone, first?_eq_none_iff hgs, List.forall_mem_singleton, List.forall_mem_map]
    simp only [Piece.hits_textSeq_iff hps hstars hexpand, not_exists, not_and]
    exact ⟨fun h e he subject hsubject => h subject hsubject e he,
      fun h subject hsubject e he => h e he subject hsubject⟩
  rw [← Option.ne_none_iff_isSome, ← Option.ne_none_iff_isSome]
  exact not_congr hmiss

/-- The pieces of a pattern with a group in a branch of another. -/
def sourcePieces : List Piece :=
  [.char 'r', .char '/',
    .group [.char 'a'] [[.char 'b', .group [.char 'c'] [[.char 'd', .char '?']]]],
    .char '*', .char '.', .group [.char 'h'] [[.char 'c']]]

theorem exists_compileAll_and_first?_iff_expand_sources :
    Piece.AllProper false sourcePieces ∧ (¬ ['*', '*'] <:+: Piece.textSeq sourcePieces) ∧
      (∀ e ∈ Piece.expandSeq sourcePieces, ¬ ['*', '*'] <:+: e) ∧
      ∃ g gs,
        compileAll .inclusion ["r/\x7ba,b\x7bc,d?\x7d\x7d*.\x7bh,c\x7d"] = .ok [g] ∧
        compileAll .inclusion
          ["r/a*.h", "r/a*.c", "r/bc*.h", "r/bc*.c", "r/bd?*.h", "r/bd?*.c"] = .ok gs ∧
        (first? gs ["r/bdx1.h"]).isSome ∧
        ∀ subjects, (first? [g] subjects).isSome ↔ (first? gs subjects).isSome := by
  have hproper : Piece.AllProper false sourcePieces := by
    simp [sourcePieces, Piece.AllProper, Piece.IsProper, Piece.MoreProper, IsSimple]
  have hstars : ¬ ['*', '*'] <:+: Piece.textSeq sourcePieces := by decide
  have hexpand : ∀ e ∈ Piece.expandSeq sourcePieces, ¬ ['*', '*'] <:+: e := by decide
  obtain ⟨g, gs, hg, hgs, hfirst⟩ := exists_compileAll_and_first?_iff_expand hproper hstars hexpand
  obtain ⟨g', hg', hmatch⟩ :
      ∃ g', compileAll .inclusion ["r/\x7ba,b\x7bc,d?\x7d\x7d*.\x7bh,c\x7d"] = .ok [g'] ∧
        (first? [g'] ["r/bdx1.h"]).isSome := ⟨_, rfl, by decide +kernel⟩
  have heq : [g] = [g'] := Except.ok.inj ((hg .inclusion).symm.trans hg')
  rw [← heq, hfirst] at hmatch
  exact ⟨hproper, hstars, hexpand, g, gs, hg .inclusion, hgs .inclusion, hmatch, hfirst⟩

end PathGuard.Glob
