import PathGuard.Proofs.Glob.Text

/-!
# Patterns that end in a slash and two stars

Whatever stands before them, a slash and two stars at the end of a pattern are read as a token that
takes a slash and anything after it, or the pattern is nothing but two leading stars. Therefore what such
a pattern matches it matches with any text behind it.

## Main definitions

- `Lexeme.EndsWide`: lexemes with a flaw, or with a slash and two stars at the end
- `Draft.LeadsFirst`: drafts whose leading stars come first in their sequences

## Main results

- `Token.build_wide`: what a slash and two stars at the end are read to
- `Glob.Hits.append`: such a pattern matches with any text behind
-/

namespace PathGuard.Glob

/-! ### Lexemes -/

namespace Lexeme

/-- Lexemes among which is a flaw, or at whose end stand a slash and two stars. -/
def EndsWide (ls : List Lexeme) : Prop :=
  (∃ f, .flaw f ∈ ls) ∨ ∃ before escaped, ls = before ++ [.literal '/' escaped, .doubleStar]

theorem EndsWide.cons {ls : List Lexeme} (h : EndsWide ls) (l : Lexeme) : EndsWide (l :: ls) := by
  rcases h with ⟨f, hf⟩ | ⟨before, escaped, rfl⟩
  · exact .inl ⟨f, List.mem_cons_of_mem l hf⟩
  · exact .inr ⟨l :: before, escaped, rfl⟩

/-- The first of such lexemes is a flaw, the slash before the stars, or stands before such lexemes. -/
theorem EndsWide.cases_cons {l : Lexeme} {ls : List Lexeme} (h : EndsWide (l :: ls)) :
    (∃ f, l = .flaw f) ∨ (∃ escaped, l = .literal '/' escaped ∧ ls = [.doubleStar]) ∨
      EndsWide ls := by
  rcases h with ⟨f, hf⟩ | ⟨before, escaped, heq⟩
  · rcases List.mem_cons.1 hf with rfl | hf
    · exact .inl ⟨f, rfl⟩
    · exact .inr (.inr (.inl ⟨f, hf⟩))
  · cases before with
    | nil =>
      obtain ⟨rfl, rfl⟩ := List.cons.inj heq
      exact .inr (.inl ⟨escaped, rfl, rfl⟩)
    | cons k before =>
      obtain ⟨rfl, rfl⟩ := List.cons.inj heq
      exact .inr (.inr (.inr ⟨before, escaped, rfl⟩))

theorem endsWide_flaw (f : Flaw) : EndsWide [.flaw f] :=
  .inl ⟨f, List.mem_cons_self⟩

/-- A character other than a closing bracket does not end a class. -/
theorem read_ne_done {d : CharClass.Draft} {c : Char} (hc : c ≠ ']') (k : CharClass) :
    d.read c ≠ .done k := by
  unfold CharClass.Draft.read CharClass.Draft.extend
  rw [if_neg hc]
  split_ifs
  · nofun
  · split
    · nofun
    · split_ifs <;> nofun
  · nofun
  · nofun

/-- A class that is not closed is a flaw. -/
theorem exists_scan_inClass {cs : List Char} (hcs : ']' ∉ cs) (d : CharClass.Draft) :
    ∃ f, scan (.inClass d) cs = [.flaw f] := by
  induction cs generalizing d with
  | nil => exact ⟨.unclosedClass, rfl⟩
  | cons c cs ih =>
    rw [List.mem_cons, not_or] at hcs
    rw [scan]
    cases hread : d.read c with
    | more d' => exact ih hcs.2 d'
    | done k => exact absurd hread (read_ne_done (Ne.symm hcs.1) k)
    | refused f => exact ⟨f, rfl⟩

/-- A slash and two stars are scanned to themselves wherever they are not in a class. -/
theorem endsWide_scan (mode : Mode) (cs : List Char) :
    EndsWide (scan mode (cs ++ ['/', '*', '*'])) := by
  induction cs generalizing mode with
  | nil =>
    have hclass : ∀ d, EndsWide (scan (.inClass d) ['/', '*', '*']) := by
      intro d
      have hopen : ']' ∉ ['/', '*', '*'] := by decide
      obtain ⟨f, hf⟩ := exists_scan_inClass hopen d
      rw [hf]
      exact endsWide_flaw f
    cases mode with
    | plain => exact .inr ⟨[], false, rfl⟩
    | starred => exact .inr ⟨[.star], false, rfl⟩
    | escaped => exact .inr ⟨[], true, rfl⟩
    | bracket => exact hclass ⟨false, [('/', '/')], false⟩
    | inClass d => exact hclass d
  | cons c cs ih =>
    cases mode with
    | plain =>
      rw [List.cons_append, scan]
      cases begin c with
      | inl l => exact (ih .plain).cons l
      | inr mode => exact ih mode
    | starred =>
      rw [List.cons_append, scan]
      split_ifs
      · exact (ih .plain).cons _
      · cases begin c with
        | inl l => exact ((ih .plain).cons l).cons _
        | inr mode => exact (ih mode).cons _
    | escaped =>
      rw [List.cons_append, scan]
      exact (ih .plain).cons _
    | bracket =>
      rw [List.cons_append, scan]
      split_ifs
      · exact ih _
      · cases (CharClass.Draft.start false).read c with
        | more d => exact ih _
        | done k => exact (ih .plain).cons _
        | refused f => exact endsWide_flaw f
    | inClass d =>
      rw [List.cons_append, scan]
      cases d.read c with
      | more d => exact ih _
      | done k => exact (ih .plain).cons _
      | refused f => exact endsWide_flaw f

end Lexeme

/-! ### Drafts -/

namespace Token

theorem leading_notMem_dropLast_cons {t : Token} {branch : List Token} (ht : t ≠ .leading)
    (hbranch : .leading ∉ branch.dropLast) : .leading ∉ (t :: branch).dropLast := by
  cases branch with
  | nil => exact List.not_mem_nil
  | cons u before =>
    rw [List.dropLast_cons_of_ne_nil (List.cons_ne_nil u before), List.mem_cons, not_or]
    exact ⟨Ne.symm ht, hbranch⟩

theorem leading_notMem_dropLast_of_cons {t : Token} {branch : List Token}
    (h : .leading ∉ (t :: branch).dropLast) : .leading ∉ branch.dropLast := by
  cases branch with
  | nil => exact List.not_mem_nil
  | cons u before => exact fun hmem => h (List.mem_cons_of_mem t hmem)

namespace Draft

/-- A draft whose leading stars come first in the sequences that are being read. -/
structure LeadsFirst (d : Draft) : Prop where
  branch : .leading ∉ d.branch.dropLast
  frames : ∀ frame ∈ d.frames, .leading ∉ frame.outer.dropLast

/-- Stars are read as leading ones only at the start of a sequence. -/
theorem branch_eq_nil_of_starRole {d : Draft} {follower : Follower}
    (h : d.starRole follower = .leading) : d.branch = [] := by
  by_contra hne
  have hbranch : d.branch.isEmpty = false := by simpa using hne
  unfold starRole at h
  rw [hbranch] at h
  cases hboundary : d.atBoundary with
  | false =>
    rw [hboundary] at h
    cases h
  | true =>
    rw [hboundary] at h
    cases follower with
    | delimiter => cases hframes : d.frames.isEmpty <;> rw [hframes] at h <;> cases h
    | _ => cases h

theorem leadsFirst_empty : Draft.empty.LeadsFirst :=
  ⟨List.not_mem_nil, nofun⟩

namespace LeadsFirst

variable {d d' : Draft} {t : Token} {l : Lexeme} {rest : List Lexeme}

theorem seen (hd : d.LeadsFirst) (c : Option Char) : (d.seen c).LeadsFirst :=
  ⟨hd.branch, hd.frames⟩

theorem add (hd : d.LeadsFirst) (ht : t ≠ .leading) : (d.add t).LeadsFirst :=
  ⟨leading_notMem_dropLast_cons ht hd.branch, hd.frames⟩

theorem replace (hd : d.LeadsFirst) (ht : t ≠ .leading) : (d.replace t).LeadsFirst := by
  obtain ⟨branch, frames, last⟩ := d
  unfold Draft.replace
  split
  · exact hd
  · exact hd
  · next before _ _ hbranch =>
    obtain rfl : branch = _ := hbranch
    exact ⟨leading_notMem_dropLast_cons ht (leading_notMem_dropLast_of_cons hd.branch), hd.frames⟩
  · exact hd.add ht

theorem addStars (hd : d.LeadsFirst) (follower : Follower) :
    (d.addStars (d.starRole follower)).LeadsFirst := by
  cases hrole : d.starRole follower with
  | leading =>
    have hnil := branch_eq_nil_of_starRole hrole
    refine ⟨?_, hd.frames⟩
    simp [Draft.addStars, Draft.add, hnil]
  | trailing => exact hd.replace (by simp)
  | spanning => exact hd.replace (by simp)
  | twoStars =>
    have hone : (d.add .star).LeadsFirst := hd.add (by simp)
    exact hone.add (by simp)

theorem addStarsSlash (hd : d.LeadsFirst) : d.addStarsSlash.LeadsFirst := by
  have hstars := hd.addStars .slash
  have hslash : ((d.addStars (d.starRole .slash)).add (.literal '/')).LeadsFirst := hstars.add nofun
  simp only [Draft.addStarsSlash]
  split_ifs
  · exact hslash.seen _
  · exact hstars.seen _

theorem openGroup (hd : d.LeadsFirst) : d.openGroup.LeadsFirst :=
  ⟨List.not_mem_nil, List.forall_mem_cons.2 ⟨hd.branch, hd.frames⟩⟩

theorem nextBranch (hd : d.LeadsFirst) : d.nextBranch.LeadsFirst := by
  obtain ⟨branch, frames, last⟩ := d
  cases frames with
  | nil => exact hd.add nofun
  | cons frame frames =>
    obtain ⟨houter, hframes⟩ := List.forall_mem_cons.1 hd.frames
    exact ⟨List.not_mem_nil, List.forall_mem_cons.2 ⟨houter, hframes⟩⟩

theorem closeGroup (hd : d.LeadsFirst) (h : d.closeGroup = .ok d') : d'.LeadsFirst := by
  obtain ⟨branch, frames, last⟩ := d
  cases frames with
  | nil => cases h
  | cons frame frames =>
    obtain rfl := Except.ok.inj h
    obtain ⟨houter, hframes⟩ := List.forall_mem_cons.1 hd.frames
    exact ⟨leading_notMem_dropLast_cons nofun houter, hframes⟩

/-- Leading stars stay first whatever is read. -/
theorem read (hd : d.LeadsFirst) (h : d.read l rest = .ok d') : d'.LeadsFirst := by
  cases l with
  | closeGroup => exact hd.closeGroup h
  | flaw f => cases h
  | doubleStar =>
    obtain rfl := Except.ok.inj h
    exact hd.addStars _
  | openGroup =>
    obtain rfl := Except.ok.inj h
    exact hd.openGroup
  | comma =>
    obtain rfl := Except.ok.inj h
    exact hd.nextBranch
  | _ =>
    obtain rfl := Except.ok.inj h
    exact hd.add nofun

end LeadsFirst

end Draft

/-- Two stars at the end, after a slash, are read to a token that takes whatever follows the slash, or
    stay the leading stars that they come after. -/
theorem build_doubleStar_of_slash {d : Draft} {ts : List Token} (hd : d.LeadsFirst)
    (hbranch : d.branch ≠ []) (hlast : d.last = some '/') (h : build d [.doubleStar] = .ok ts) :
    ts = [.leading] ∨ ∃ us, ts = us ++ [.trailing] := by
  have hrole : d.starRole .nothing = .trailing := by
    unfold Draft.starRole
    rw [if_neg (by simpa using hbranch), if_pos (by simp [Draft.atBoundary, hlast])]
  have hfinish : ts = (d.replace .trailing).branch.reverse := by
    simp only [build, Draft.read, Follower.ofLexemes, hrole, Draft.addStars, Draft.finish] at h
    split_ifs at h
    exact (Except.ok.inj h).symm
  have hleads := hd.branch
  rw [hfinish]
  unfold Draft.replace
  split
  · next before heq =>
    rw [heq] at hleads ⊢
    cases before with
    | nil => exact .inl rfl
    | cons u before => exact absurd List.mem_cons_self hleads
  · next before heq => exact .inr ⟨before.reverse, by rw [heq, List.reverse_cons]⟩
  · next before _ _ heq => exact .inr ⟨before.reverse, List.reverse_cons⟩
  · next heq => exact absurd heq hbranch

theorem branch_replace_ne_nil (d : Draft) (t : Token) : (d.replace t).branch ≠ [] := by
  unfold Draft.replace
  split
  · next heq => simp [heq]
  · next heq => simp [heq]
  · exact List.cons_ne_nil _ _
  · exact List.cons_ne_nil _ _

theorem branch_addStars_ne_nil (d : Draft) (role : StarRole) : (d.addStars role).branch ≠ [] := by
  cases role with
  | leading => exact List.cons_ne_nil _ _
  | trailing => exact branch_replace_ne_nil d _
  | spanning => exact branch_replace_ne_nil d _
  | twoStars => exact List.cons_ne_nil _ _

theorem branch_addStarsSlash_ne_nil (d : Draft) : d.addStarsSlash.branch ≠ [] := by
  simp only [Draft.addStarsSlash]
  split_ifs
  · exact List.cons_ne_nil _ _
  · exact branch_addStars_ne_nil d _

/-- A slash and two stars at the end of lexemes, whatever has been read before. -/
theorem build_wide {d : Draft} {ls : List Lexeme} {ts : List Token} (hd : d.LeadsFirst)
    (hls : Lexeme.EndsWide ls) (h : build d ls = .ok ts) :
    ts = [.leading] ∨ ∃ us, ts = us ++ [.trailing] := by
  -- the induction follows the reading of lexemes; the slash is read for itself, or with stars before it
  fun_induction build d ls with
  | case1 d =>
    rcases hls with ⟨f, hf⟩ | ⟨before, escaped, heq⟩
    · cases hf
    · simp at heq
  | case2 d rest ih =>
    rcases hls.cases_cons with ⟨f, hf⟩ | ⟨escaped, hslash, -⟩ | hls
    · cases hf
    · cases hslash
    · rcases hls.cases_cons with ⟨f, hf⟩ | ⟨escaped, -, rfl⟩ | hls
      · cases hf
      · exact build_doubleStar_of_slash hd.addStarsSlash (branch_addStarsSlash_ne_nil d) rfl h
      · exact ih hd.addStarsSlash hls h
  | case3 d l rest hne d' hread ih =>
    have hnext := (hd.read hread).seen l.lastChar
    rcases hls.cases_cons with ⟨f, rfl⟩ | ⟨escaped, rfl, rfl⟩ | hls
    · cases hread
    · obtain rfl := Except.ok.inj hread
      exact build_doubleStar_of_slash hnext (List.cons_ne_nil _ _) rfl h
    · exact ih hnext hls h
  | case4 d l rest hne f hread => cases h

/-- Sequences that end in such a token have every text behind a text of theirs. -/
theorem append_mem_seqLanguage {us : List Token} {w : List UInt8}
    (hw : w ∈ seqLanguage (us ++ [.trailing])) (x : List UInt8) :
    w ++ x ∈ seqLanguage (us ++ [.trailing]) := by
  rw [seqLanguage_append, seqLanguage, seqLanguage, mul_one, language] at hw ⊢
  obtain ⟨u, hu, -, ⟨s, hs, v, -, rfl⟩, rfl⟩ := hw
  refine ⟨u, hu, s ++ (v ++ x), ⟨s, hs, v ++ x, fun _ _ => rfl, rfl⟩, ?_⟩
  simp

end Token

/-- A pattern that is two stars, or ends in a slash and two stars. -/
def IsWide (pattern : String) : Prop :=
  pattern = "**" ∨ ∃ before, pattern = before ++ "/**"

/-- The tokens of such a pattern are leading stars alone, or end in the token of a slash and all that
    follows it. -/
theorem IsWide.tokens {pattern : String} (hpattern : IsWide pattern) {ts : List Token}
    (hts : Token.ofString pattern = .ok ts) :
    ts = [.leading] ∨ ∃ us, ts = us ++ [.trailing] := by
  rcases hpattern with rfl | ⟨before, rfl⟩
  · exact .inl (Except.ok.inj hts).symm
  · have hwide := Lexeme.endsWide_scan .plain before.toList
    have htext : (before ++ "/**").toList = before.toList ++ ['/', '*', '*'] := String.toList_append
    rw [← htext] at hwide
    exact Token.build_wide Token.Draft.leadsFirst_empty hwide hts

/-- What such a pattern matches it matches with any text behind. -/
theorem Hits.append {pattern subject : String} (hpattern : IsWide pattern) (h : Hits pattern subject)
    (x : String) : Hits pattern (subject ++ x) := by
  obtain ⟨ts, hts⟩ := exists_tokens_of_compiles h.compiles
  have hencode : Utf8.encode (subject ++ x) = Utf8.encode subject ++ Utf8.encode x := by
    rw [Utf8.encode, String.toList_append, List.flatMap_append]
    rfl
  rw [hits_iff_of_tokens hts] at h ⊢
  rw [hencode]
  rcases hpattern.tokens hts with rfl | ⟨us, rfl⟩
  · exact .inl rfl
  · rcases h with hleading | hmem
    · exact .inl hleading
    · exact .inr (Token.append_mem_seqLanguage hmem _)

end PathGuard.Glob
