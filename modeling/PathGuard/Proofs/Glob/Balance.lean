import PathGuard.Proofs.Glob.Expansion
import PathGuard.Proofs.Rules.Alone

/-!
# Patterns with balanced braces

Much happens to a branch while it is read: a comma ends it, and two stars may put a token in the place of
its last one. But only braces change how many groups are open, and this number alone says whether a closing
brace and the end of the pattern are in order. Therefore a pattern without classes and escapes is read just
when its braces are balanced.

## Main definitions

- `Lexeme.nestingAfter`: the number of open groups after a lexeme
- `IsBalanced`: text whose braces are balanced
- `Overcloses`: text that closes a group when none is open

## Main results

- `Token.build_map_unit`: lexemes are read just when the number of open groups allows it
- `foldlM_nestingAfter_lexeme`: the number of open groups after a text
- `isAccepted_iff_isBalanced`: when and why a pattern without classes and escapes is refused
-/

namespace PathGuard.Glob

/-! ### Open groups -/

/-- The number of open groups after a lexeme, when `n` are open before it. -/
def Lexeme.nestingAfter (n : Nat) : Lexeme → Except Flaw Nat
  | openGroup => .ok (n + 1)
  | closeGroup =>
    match n with
    | 0 => .error .unopenedGroup
    | m + 1 => .ok m
  | flaw f => .error f
  | _ => .ok n

namespace Token

/-- Whether a pattern may end when `n` groups are open. -/
def endAt (n : Nat) : Except Flaw Unit :=
  if n = 0 then .ok () else .error .unclosedGroup

namespace Draft

variable (d : Draft)

/-- The number of open groups. -/
def nesting : Nat := d.frames.length

theorem nesting_add (t : Token) : (d.add t).nesting = d.nesting := rfl

theorem nesting_seen (c : Option Char) : (d.seen c).nesting = d.nesting := rfl

theorem nesting_replace (t : Token) : (d.replace t).nesting = d.nesting := by
  unfold replace
  split <;> rfl

/-- Two stars leave the open groups as they are, whatever they do to the branch. -/
theorem nesting_addStars (role : StarRole) : (d.addStars role).nesting = d.nesting := by
  cases role with
  | leading => rfl
  | trailing => exact nesting_replace d _
  | spanning => exact nesting_replace d _
  | twoStars => rfl

theorem nesting_addStarsSlash : d.addStarsSlash.nesting = d.nesting := by
  simp only [addStarsSlash, nesting_seen]
  split_ifs
  · rw [nesting_add, nesting_addStars]
  · exact nesting_addStars d _

theorem nesting_nextBranch : d.nextBranch.nesting = d.nesting := by
  obtain ⟨branch, frames, last⟩ := d
  cases frames <;> rfl

theorem closeGroup_map_nesting :
    d.closeGroup.map nesting = Lexeme.nestingAfter d.nesting .closeGroup := by
  obtain ⟨branch, frames, last⟩ := d
  cases frames <;> rfl

/-- What a lexeme does to a draft, it does to the number of open groups. -/
theorem read_map_nesting (l : Lexeme) (rest : List Lexeme) :
    (d.read l rest).map nesting = l.nestingAfter d.nesting := by
  cases l with
  | closeGroup => exact closeGroup_map_nesting d
  | doubleStar => exact congrArg Except.ok (nesting_addStars d _)
  | comma => exact congrArg Except.ok (nesting_nextBranch d)
  | _ => rfl

theorem finish_map_unit : d.finish.map (fun _ => ()) = endAt d.nesting := by
  obtain ⟨branch, frames, last⟩ := d
  cases frames <;> rfl

end Draft

/-- Lexemes are read just when the number of open groups allows it from one to the next and at the end,
    and otherwise have the flaw that is found in this way. -/
theorem build_map_unit (d : Draft) (ls : List Lexeme) :
    (build d ls).map (fun _ => ()) = ls.foldlM Lexeme.nestingAfter d.nesting >>= endAt := by
  -- the induction follows the reading; two stars and a slash are read together and open nothing
  induction d, ls using build.induct with
  | case1 d => exact d.finish_map_unit
  | case2 d rest ih =>
    rw [build, ih, Draft.nesting_addStarsSlash]
    rfl
  | case3 d l rest hne d' hread ih =>
    have hstep := d.read_map_nesting l rest
    rw [hread] at hstep
    rw [build, hread, List.foldlM_cons, ← hstep]
    · exact ih
    · exact hne
  | case4 d l rest hne f hread =>
    have hstep := d.read_map_nesting l rest
    rw [hread] at hstep
    rw [build, hread, List.foldlM_cons, ← hstep]
    · rfl
    · exact hne

end Token

/-- For the number of open groups it is the same whether stars are scanned together or apart. -/
theorem foldlM_nestingAfter_scan {cs : List Char} (hcs : ∀ c ∈ cs, c ≠ '[' ∧ c ≠ '\\') (n : Nat) :
    (Lexeme.scan .plain cs).foldlM Lexeme.nestingAfter n =
        (cs.map Piece.lexeme).foldlM Lexeme.nestingAfter n ∧
      (Lexeme.scan .starred cs).foldlM Lexeme.nestingAfter n =
        (cs.map Piece.lexeme).foldlM Lexeme.nestingAfter n := by
  -- each star changes the mode, so the two are proved at once
  induction cs generalizing n with
  | nil => exact ⟨rfl, rfl⟩
  | cons c cs ih =>
    rw [List.forall_mem_cons] at hcs
    have hlater := ih hcs.2
    by_cases hstar : c = '*'
    · subst hstar
      exact ⟨(hlater n).2, (hlater n).1⟩
    · have hplain : (Lexeme.scan .plain (c :: cs)).foldlM Lexeme.nestingAfter n =
          ((c :: cs).map Piece.lexeme).foldlM Lexeme.nestingAfter n := by
        rw [Lexeme.scan, Piece.begin_eq hcs.1.1 hcs.1.2 hstar, List.map_cons, List.foldlM_cons,
          List.foldlM_cons]
        exact congrArg _ (funext fun m => (hlater m).1)
      refine ⟨hplain, ?_⟩
      rw [Lexeme.scan_starred_of_head?_ne (by simpa using hstar)]
      exact hplain

/-! ### Balanced braces -/

/-- Text whose braces are balanced. -/
structure IsBalanced (cs : List Char) : Prop where
  /-- No beginning of the text has more closing braces than opening ones. -/
  count_le : ∀ before, before <+: cs → before.count '\x7d' ≤ before.count '\x7b'
  count_eq : cs.count '\x7d' = cs.count '\x7b'

/-- Text some beginning of which has too many closing braces, when `n` groups are open before it. -/
def Overcloses (n : Nat) (cs : List Char) : Prop :=
  ∃ before, before <+: cs ∧ n + before.count '\x7b' < before.count '\x7d'

instance (n : Nat) (cs : List Char) : Decidable (Overcloses n cs) :=
  decidable_of_iff (∃ before ∈ cs.inits, n + before.count '\x7b' < before.count '\x7d')
    (by simp only [List.mem_inits, Overcloses])

variable {n : Nat} {c : Char} {cs : List Char}

theorem not_overcloses_nil : ¬ Overcloses n [] := by
  rintro ⟨before, hbefore, hlt⟩
  rw [List.prefix_nil.1 hbefore] at hlt
  exact Nat.not_lt_zero _ hlt

/-- What the first character counts can be put into the number of open groups. The empty beginning has
    no closing brace, and every other one begins with that character. -/
theorem overcloses_cons_iff {m : Nat}
    (h : ∀ before : List Char, n + (c :: before).count '\x7b' < (c :: before).count '\x7d' ↔
      m + before.count '\x7b' < before.count '\x7d') :
    Overcloses n (c :: cs) ↔ Overcloses m cs := by
  constructor
  · rintro ⟨before, hbefore, hlt⟩
    rcases List.prefix_cons_iff.1 hbefore with rfl | ⟨later, rfl, hlater⟩
    · exact absurd hlt (Nat.not_lt_zero _)
    · exact ⟨later, hlater, (h later).1 hlt⟩
  · rintro ⟨before, hbefore, hlt⟩
    exact ⟨c :: before, List.cons_prefix_cons.2 ⟨rfl, hbefore⟩, (h before).2 hlt⟩

theorem overcloses_open_iff : Overcloses n ('\x7b' :: cs) ↔ Overcloses (n + 1) cs := by
  refine overcloses_cons_iff fun before => ?_
  rw [List.count_cons_self, List.count_cons_of_ne (by decide)]
  omega

theorem overcloses_zero_close : Overcloses 0 ('\x7d' :: cs) :=
  ⟨['\x7d'], List.prefix_append _ cs, by decide⟩

theorem overcloses_succ_close_iff : Overcloses (n + 1) ('\x7d' :: cs) ↔ Overcloses n cs := by
  refine overcloses_cons_iff fun before => ?_
  rw [List.count_cons_self, List.count_cons_of_ne (by decide)]
  omega

theorem overcloses_cons_iff_of_ne (hopen : c ≠ '\x7b') (hclose : c ≠ '\x7d') :
    Overcloses n (c :: cs) ↔ Overcloses n cs := by
  refine overcloses_cons_iff fun before => ?_
  rw [List.count_cons_of_ne hopen, List.count_cons_of_ne hclose]

theorem count_le_of_not_overcloses (h : ¬ Overcloses n cs) :
    cs.count '\x7d' ≤ n + cs.count '\x7b' :=
  Nat.le_of_not_lt fun hlt => h ⟨cs, List.prefix_rfl, hlt⟩

theorem overcloses_zero_iff :
    Overcloses 0 cs ↔ ∃ before, before <+: cs ∧ before.count '\x7b' < before.count '\x7d' := by
  simp only [Overcloses, Nat.zero_add]

theorem isBalanced_iff :
    IsBalanced cs ↔ ¬ Overcloses 0 cs ∧ cs.count '\x7d' = cs.count '\x7b' := by
  rw [overcloses_zero_iff]
  push Not
  exact ⟨fun h => ⟨h.count_le, h.count_eq⟩, fun ⟨hle, heq⟩ => ⟨hle, heq⟩⟩

instance (cs : List Char) : Decidable (IsBalanced cs) :=
  decidable_of_iff _ isBalanced_iff.symm

theorem nestingAfter_lexeme_of_ne (hopen : c ≠ '\x7b') (hclose : c ≠ '\x7d') (n : Nat) :
    Lexeme.nestingAfter n (Piece.lexeme c) = .ok n := by
  by_cases hc : IsSimple c
  · rw [Piece.lexeme_of_isSimple hc, Lexeme.ofSimple, plainLexeme]
    split_ifs <;> rfl
  · have hother : c = '[' ∨ c = '\\' := by
      simpa [IsSimple, hopen, hclose, ← not_or] using hc
    rcases hother with rfl | rfl <;> rfl

/-- The number of open groups after a text, unless a group is closed when none is open. -/
theorem foldlM_nestingAfter_lexeme (n : Nat) (cs : List Char) :
    (cs.map Piece.lexeme).foldlM Lexeme.nestingAfter n =
      if Overcloses n cs then .error .unopenedGroup
      else .ok (n + cs.count '\x7b' - cs.count '\x7d') := by
  induction cs generalizing n with
  | nil =>
    rw [if_neg not_overcloses_nil]
    rfl
  | cons c cs ih =>
    rw [List.map_cons, List.foldlM_cons]
    by_cases hopen : c = '\x7b'
    · subst hopen
      refine (ih (n + 1)).trans (if_congr overcloses_open_iff.symm rfl (congrArg _ ?_))
      rw [List.count_cons_self, List.count_cons_of_ne (by decide)]
      omega
    · by_cases hclose : c = '\x7d'
      · subst hclose
        cases n with
        | zero =>
          rw [if_pos overcloses_zero_close]
          rfl
        | succ n =>
          refine (ih n).trans (if_congr overcloses_succ_close_iff.symm rfl (congrArg _ ?_))
          rw [List.count_cons_self, List.count_cons_of_ne (by decide)]
          omega
      · rw [nestingAfter_lexeme_of_ne hopen hclose]
        refine (ih n).trans
          (if_congr (overcloses_cons_iff_of_ne hopen hclose).symm rfl (congrArg _ ?_))
        rw [List.count_cons_of_ne hopen, List.count_cons_of_ne hclose]

/-! ### Reading patterns -/

variable {pattern : String}

theorem ofString_map_unit (hpattern : ∀ c ∈ pattern.toList, c ≠ '[' ∧ c ≠ '\\') :
    (Token.ofString pattern).map (fun _ => ()) =
      if Overcloses 0 pattern.toList then .error .unopenedGroup
      else if IsBalanced pattern.toList then .ok () else .error .unclosedGroup := by
  have hempty : Token.Draft.empty.nesting = 0 := rfl
  rw [Token.ofString, Token.build_map_unit, Lexeme.ofString,
    (foldlM_nestingAfter_scan hpattern _).1, hempty, foldlM_nestingAfter_lexeme]
  split_ifs with hover hbalanced
  · rfl
  · have hcount := hbalanced.count_eq
    exact if_pos (by omega)
  · have hle := count_le_of_not_overcloses hover
    have hcount : pattern.toList.count '\x7d' ≠ pattern.toList.count '\x7b' := fun heq =>
      hbalanced (isBalanced_iff.2 ⟨hover, heq⟩)
    exact if_neg (by omega)

/-- A pattern without classes and escapes closes a group when none is open, or is balanced and read, or
    leaves a group open. -/
theorem compile_cases (hpattern : ∀ c ∈ pattern.toList, c ≠ '[' ∧ c ≠ '\\') :
    (Overcloses 0 pattern.toList ∧ compile pattern = .error .unopenedGroup) ∨
      (IsBalanced pattern.toList ∧ Compiles pattern) ∨
      (¬ Overcloses 0 pattern.toList ∧ ¬ IsBalanced pattern.toList ∧
        compile pattern = .error .unclosedGroup) := by
  have hread := ofString_map_unit hpattern
  cases htokens : Token.ofString pattern with
  | ok tokens =>
    rw [htokens, Except.map] at hread
    split_ifs at hread with hover hbalanced
    exact .inr (.inl ⟨hbalanced, compiles_of_tokens htokens⟩)
  | error flaw =>
    have hcompile : compile pattern = .error flaw := by
      rw [compile_eq, htokens]
      rfl
    rw [htokens, Except.map] at hread
    split_ifs at hread with hover hbalanced
    · obtain rfl := Except.error.inj hread
      exact .inl ⟨hover, hcompile⟩
    · obtain rfl := Except.error.inj hread
      exact .inr (.inr ⟨hover, hbalanced, hcompile⟩)

/-- A pattern without classes and escapes is read just when its braces are balanced, whatever stands
    between them. It is refused for an unopened group if some beginning of it has more closing braces
    than opening ones, and for an unclosed group if its braces are unbalanced otherwise. -/
theorem isAccepted_iff_isBalanced (hpattern : ∀ c ∈ pattern.toList, c ≠ '[' ∧ c ≠ '\\')
    (side : RuleSide) :
    (IsAccepted side pattern ↔ IsBalanced pattern.toList) ∧
      (compileAll side [pattern] =
          .error (.refusedPattern side pattern Flaw.unopenedGroup.message) ↔
        ∃ before, before <+: pattern.toList ∧ before.count '\x7b' < before.count '\x7d') ∧
      (compileAll side [pattern] =
          .error (.refusedPattern side pattern Flaw.unclosedGroup.message) ↔
        ¬ IsBalanced pattern.toList ∧
          ¬ ∃ before, before <+: pattern.toList ∧ before.count '\x7b' < before.count '\x7d') := by
  have hmessage : Flaw.unopenedGroup.message ≠ Flaw.unclosedGroup.message := by decide
  rw [isAccepted_iff, compileAll_singleton, ← overcloses_zero_iff]
  rcases compile_cases hpattern with ⟨hover, hflaw⟩ | ⟨hbalanced, g, hg⟩ | ⟨hover, hbalanced, hflaw⟩
  · have hbalanced : ¬ IsBalanced pattern.toList := fun h => (isBalanced_iff.1 h).1 hover
    simp [Compiles, hflaw, hover, hbalanced, hmessage]
  · have hover := (isBalanced_iff.1 hbalanced).1
    simp [Compiles, hg, hover, hbalanced]
  · simp [Compiles, hflaw, hover, hbalanced, hmessage.symm]

/-- One pattern is read; another has as many closing braces as opening ones and closes a group too early;
    a third leaves one open. -/
theorem isAccepted_iff_isBalanced_stars :
    (∀ pattern ∈ ["r/\x7b**/a,\x7bb?,**\x7d,*\x7d/**,", "r/\x7b**\x7d\x7d,\x7b/**",
        "**/\x7b,\x7b**/\x7d*?"], ∀ c ∈ pattern.toList, c ≠ '[' ∧ c ≠ '\\') ∧
      IsAccepted .exclusion "r/\x7b**/a,\x7bb?,**\x7d,*\x7d/**," ∧
      compileAll .exclusion ["r/\x7b**\x7d\x7d,\x7b/**"] = .error (.refusedPattern .exclusion
        "r/\x7b**\x7d\x7d,\x7b/**" Flaw.unopenedGroup.message) ∧
      compileAll .exclusion ["**/\x7b,\x7b**/\x7d*?"] = .error (.refusedPattern .exclusion
        "**/\x7b,\x7b**/\x7d*?" Flaw.unclosedGroup.message) := by
  have hall : ∀ pattern ∈ ["r/\x7b**/a,\x7bb?,**\x7d,*\x7d/**,", "r/\x7b**\x7d\x7d,\x7b/**",
      "**/\x7b,\x7b**/\x7d*?"], ∀ c ∈ pattern.toList, c ≠ '[' ∧ c ≠ '\\' := by simp
  refine ⟨hall, ?_, ?_, ?_⟩
  · exact (isAccepted_iff_isBalanced (hall _ (by simp)) .exclusion).1.2 (by decide +kernel)
  · refine (isAccepted_iff_isBalanced (hall _ (by simp)) .exclusion).2.1.2 ?_
    rw [← overcloses_zero_iff]
    decide +kernel
  · refine (isAccepted_iff_isBalanced (hall _ (by simp)) .exclusion).2.2.2 ?_
    rw [← overcloses_zero_iff]
    decide +kernel

end PathGuard.Glob
