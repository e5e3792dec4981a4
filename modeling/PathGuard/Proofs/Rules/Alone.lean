import PathGuard.Proofs.Rules.Matching

/-!
# Patterns on their own

What a list of patterns does is told from what each of them does as the only pattern of a list. A list is
refused for the first pattern that is refused on its own, and for the same reason; where none is, the
list settles a path by the first pattern that matches on its own.

## Main definitions

- `Glob.IsAccepted`, `Glob.matchesAlone`: what a pattern does on its own
- `Glob.FirstRefused`: the pattern of a list that is refused first, and why
- `PathRules.Blames`: the fault of rules that are refused
- `PathRules.verdict`: the verdict of rules, from what each pattern does on its own

## Main results

- `PathRules.exists_blames_iff`: rules have a fault when one of their patterns is refused on its own
- `Matcher.ofRules_eq_error_iff_blames`: rules are refused for their fault
- `Matcher.judge_eq_verdict`: a matcher judges as its patterns do on their own
-/

namespace PathGuard

namespace Glob

/-- A pattern that is read when it is the only one of a list. -/
def IsAccepted (side : RuleSide) (pattern : String) : Prop :=
  ∃ globs, compileAll side [pattern] = .ok globs

/-- Whether a pattern that is the only one of a list is read and matches one of the subjects. -/
def matchesAlone (side : RuleSide) (subjects : List String) (pattern : String) : Bool :=
  match compileAll side [pattern] with
  | .ok globs => (first? globs subjects).isSome
  | .error _ => false

/-- The pattern of a list that is refused first, and the reason for which it is refused on its own. -/
def FirstRefused (side : RuleSide) (patterns : List String) (pattern reason : String) : Prop :=
  ∃ before after, patterns = before ++ pattern :: after ∧
    (∀ earlier ∈ before, IsAccepted side earlier) ∧
    compileAll side [pattern] = .error (.refusedPattern side pattern reason)

section Alone

variable {side : RuleSide} {pattern reason : String} {patterns : List String}

theorem compileAll_singleton (side : RuleSide) (pattern : String) :
    compileAll side [pattern] =
      match compile pattern with
      | .error flaw => .error (.refusedPattern side pattern flaw.message)
      | .ok g => .ok [g] := by
  rw [compileAll_cons]
  cases compile pattern <;> rfl

theorem isAccepted_iff : IsAccepted side pattern ↔ Compiles pattern := by
  rw [IsAccepted, exists_compileAll_iff, List.forall_mem_singleton]

theorem FirstRefused.mem (h : FirstRefused side patterns pattern reason) :
    pattern ∈ patterns ∧ ¬ IsAccepted side pattern := by
  obtain ⟨before, after, rfl, -, hrefused⟩ := h
  refine ⟨by simp, fun ⟨globs, hglobs⟩ => ?_⟩
  rw [hrefused] at hglobs
  cases hglobs

/-- A list is refused for the first pattern that is refused on its own, and for the same reason. -/
theorem compileAll_eq_error_iff_firstRefused {fault : CheckFault} :
    compileAll side patterns = .error fault ↔
      ∃ pattern reason, FirstRefused side patterns pattern reason ∧
        fault = .refusedPattern side pattern reason := by
  rw [compileAll_eq_error_iff]
  constructor
  · rintro ⟨before, pattern, after, flaw, hcut, hbefore, hflaw, hfault⟩
    refine ⟨pattern, flaw.message, ⟨before, after, hcut, fun earlier hearlier => ?_, ?_⟩, hfault⟩
    · exact isAccepted_iff.2 (hbefore earlier hearlier)
    · rw [compileAll_singleton, hflaw]
  · rintro ⟨pattern, reason, ⟨before, after, hcut, hbefore, hrefused⟩, rfl⟩
    rw [compileAll_singleton] at hrefused
    cases hpattern : compile pattern with
    | ok g => simp [hpattern] at hrefused
    | error flaw =>
      rw [hpattern, Except.error.injEq, CheckFault.refusedPattern.injEq] at hrefused
      refine ⟨before, pattern, after, flaw, hcut, fun earlier hearlier => ?_, hpattern, ?_⟩
      · exact isAccepted_iff.1 (hbefore earlier hearlier)
      · rw [hrefused.2.2]

theorem exists_firstRefused_iff :
    (∃ pattern reason, FirstRefused side patterns pattern reason) ↔
      ∃ pattern ∈ patterns, ¬ IsAccepted side pattern := by
  constructor
  · rintro ⟨pattern, reason, h⟩
    exact ⟨pattern, h.mem⟩
  · rintro ⟨refused, hmem, hrefused⟩
    cases hall : compileAll side patterns with
    | ok globs =>
      have hcompiles := (exists_compileAll_iff side).1 ⟨globs, hall⟩
      exact absurd (isAccepted_iff.2 (hcompiles refused hmem)) hrefused
    | error fault =>
      obtain ⟨pattern, reason, h, -⟩ := compileAll_eq_error_iff_firstRefused.1 hall
      exact ⟨pattern, reason, h⟩

theorem source_of_compile {g : Glob} (h : compile pattern = .ok g) : g.source = pattern := by
  rw [compile_eq] at h
  cases htokens : Token.ofString pattern with
  | error flaw => simp [htokens, Except.map] at h
  | ok tokens =>
    rw [htokens] at h
    rw [← Except.ok.inj h]

theorem matchesAlone_of_compile {g : Glob} (h : compile pattern = .ok g) (subjects : List String) :
    matchesAlone side subjects pattern = g.acceptsAny subjects := by
  rw [matchesAlone, compileAll_singleton, h]
  cases hany : g.acceptsAny subjects <;> simp [first?, hany]

/-- The first pattern of a list that matches is the first that matches on its own. -/
theorem source_first? {globs : List Glob} (h : compileAll side patterns = .ok globs)
    (subjects : List String) :
    (first? globs subjects).map (·.source) = patterns.find? (matchesAlone side subjects) := by
  rw [compileAll_eq_ok_iff] at h
  induction h with
  | nil => rfl
  | @cons pattern g patterns globs hg hlater ih =>
    rw [first?, List.find?_cons, List.find?_cons, matchesAlone_of_compile hg, ← ih]
    cases g.acceptsAny subjects with
    | true => exact congrArg some (source_of_compile hg)
    | false => rfl

end Alone

end Glob

namespace PathRules

/-- The patterns of a side, in stored order. -/
def listed (rules : PathRules) : RuleSide → List String
  | .inclusion => rules.includes
  | .exclusion => rules.excludes

/-- The fault of rules that are refused: it names the include that is refused first, and only where no
    include is refused the exclude that is refused first. -/
inductive Blames (rules : PathRules) : CheckFault → Prop
  | inclusion {pattern reason : String}
      (h : Glob.FirstRefused .inclusion rules.includes pattern reason) :
      Blames rules (.refusedPattern .inclusion pattern reason)
  | exclusion {pattern reason : String}
      (hincludes : ∀ earlier ∈ rules.includes, Glob.IsAccepted .inclusion earlier)
      (h : Glob.FirstRefused .exclusion rules.excludes pattern reason) :
      Blames rules (.refusedPattern .exclusion pattern reason)

/-- The verdict of rules on a path that is given under both spellings, from what each pattern does on its
    own. -/
def verdict (rules : PathRules) (qualified relative : String) : Verdict :=
  match rules.excludes.find? (Glob.matchesAlone .exclusion [qualified, relative]) with
  | some rule => .excluded rule
  | none =>
    match rules.includes.find? (Glob.matchesAlone .inclusion [qualified]) with
    | some rule => .included rule
    | none => .unmatched

/-- Rules have a fault just when one of their patterns is refused on its own. -/
theorem exists_blames_iff {rules : PathRules} :
    (∃ fault, rules.Blames fault) ↔
      ∃ side, ∃ pattern ∈ rules.listed side, ¬ Glob.IsAccepted side pattern := by
  constructor
  · rintro ⟨fault, h | ⟨-, h⟩⟩
    · exact ⟨.inclusion, _, h.mem⟩
    · exact ⟨.exclusion, _, h.mem⟩
  · rintro ⟨side, pattern, hmem, hrefused⟩
    by_cases hincludes : ∃ earlier ∈ rules.includes, ¬ Glob.IsAccepted .inclusion earlier
    · obtain ⟨pattern, reason, h⟩ := Glob.exists_firstRefused_iff.2 hincludes
      exact ⟨_, .inclusion h⟩
    · have hread : ∀ earlier ∈ rules.includes, Glob.IsAccepted .inclusion earlier := by
        simpa using hincludes
      cases side with
      | inclusion => exact absurd (hread pattern hmem) hrefused
      | exclusion =>
        obtain ⟨pattern, reason, h⟩ := Glob.exists_firstRefused_iff.2 ⟨pattern, hmem, hrefused⟩
        exact ⟨_, .exclusion hread h⟩

end PathRules

namespace Matcher

variable {rules : PathRules}

theorem ofRules_eq_error_iff_blames {fault : CheckFault} :
    ofRules rules = .error fault ↔ rules.Blames fault := by
  rw [ofRules_eq_error_iff]
  simp only [Glob.compileAll_eq_error_iff_firstRefused, ← @Glob.isAccepted_iff .inclusion]
  constructor
  · rintro (⟨pattern, reason, h, rfl⟩ | ⟨hincludes, pattern, reason, h, rfl⟩)
    · exact .inclusion h
    · exact .exclusion hincludes h
  · rintro (h | ⟨hincludes, h⟩)
    · exact .inl ⟨_, _, h, rfl⟩
    · exact .inr ⟨hincludes, _, _, h, rfl⟩

/-- A matcher judges a path as the patterns of its rules do on their own. -/
theorem judge_eq_verdict {m : Matcher} (h : ofRules rules = .ok m) (qualified relative : String) :
    m.judge qualified relative = rules.verdict qualified relative := by
  obtain ⟨hincludes, hexcludes⟩ := ofRules_eq_ok_iff.1 h
  rw [← Glob.compileAll_eq_ok_iff .inclusion] at hincludes
  rw [← Glob.compileAll_eq_ok_iff .exclusion] at hexcludes
  rw [judge, PathRules.verdict, ← Glob.source_first? hexcludes, ← Glob.source_first? hincludes]
  cases Glob.first? m.excludes [qualified, relative] with
  | some g => rfl
  | none => cases Glob.first? m.includes [qualified] <;> rfl

end Matcher

end PathGuard
