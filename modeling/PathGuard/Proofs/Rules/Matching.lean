import PathGuard.Proofs.Glob.Text
import PathGuard.Rules.Matcher

/-!
# What rules say of a path

Rules are read pattern by pattern, and judged by whether some pattern of a side matches. So what they
say of a path can be told from the patterns alone, without the globs that are read from them.

## Main definitions

- `PathRules.Compile`: rules without a pattern that is refused
- `PathRules.Grant`: rules that show a path

## Main results

- `Matcher.exists_ofRules_iff`: rules are read when each of their patterns is
- `Matcher.permission_judge_iff`: what is read of rules shows the paths that the rules show
-/

namespace PathGuard

namespace Glob

theorem compileAll_cons (side : RuleSide) (pattern : String) (patterns : List String) :
    compileAll side (pattern :: patterns) =
      match compile pattern with
      | .error flaw => .error (.refusedPattern side pattern flaw.message)
      | .ok g => (compileAll side patterns).map (g :: ·) := by
  unfold compileAll
  rw [List.mapM_cons]
  cases compile pattern with
  | error flaw => rfl
  | ok g => rfl

theorem compileAll_eq_ok_iff (side : RuleSide) {patterns : List String} {globs : List Glob} :
    compileAll side patterns = .ok globs ↔
      List.Forall₂ (fun pattern g => compile pattern = .ok g) patterns globs := by
  induction patterns generalizing globs with
  | nil =>
    have hnil : compileAll side [] = .ok [] := rfl
    rw [hnil, List.forall₂_nil_left_iff, Except.ok.injEq, eq_comm]
  | cons pattern patterns ih =>
    rw [compileAll_cons, List.forall₂_cons_left_iff]
    cases hpattern : compile pattern with
    | error flaw => simp
    | ok g =>
      cases hall : compileAll side patterns with
      | error fault =>
        have hno : ∀ later, ¬ List.Forall₂ (fun pattern g => compile pattern = .ok g) patterns later :=
          fun later hlater => by simp [ih.2 hlater] at hall
        simp [Except.map, hno]
      | ok later =>
        have hlater := ih.1 hall
        constructor
        · intro h
          obtain rfl : g :: later = globs := by simpa [Except.map] using h
          exact ⟨g, later, rfl, hlater, rfl⟩
        · rintro ⟨g', later', hg', hlater', rfl⟩
          have heq := ih.2 hlater'
          rw [hall, Except.ok.injEq] at heq
          rw [Except.ok.injEq] at hg'
          rw [heq, hg']
          rfl

theorem exists_compileAll_iff (side : RuleSide) {patterns : List String} :
    (∃ globs, compileAll side patterns = .ok globs) ↔ ∀ pattern ∈ patterns, Compiles pattern := by
  simp only [compileAll_eq_ok_iff]
  induction patterns with
  | nil => simp
  | cons pattern patterns ih =>
    rw [List.forall_mem_cons, ← ih]
    constructor
    · rintro ⟨globs, h⟩
      obtain ⟨g, later, hg, hlater, rfl⟩ := List.forall₂_cons_left_iff.1 h
      exact ⟨⟨g, hg⟩, later, hlater⟩
    · rintro ⟨⟨g, hg⟩, later, hlater⟩
      exact ⟨g :: later, .cons hg hlater⟩

/-- The patterns of a side are refused for the first of them that does not compile. -/
theorem compileAll_eq_error_iff (side : RuleSide) {patterns : List String} {fault : CheckFault} :
    compileAll side patterns = .error fault ↔
      ∃ before pattern after flaw, patterns = before ++ pattern :: after ∧
        (∀ earlier ∈ before, Compiles earlier) ∧ compile pattern = .error flaw ∧
        fault = .refusedPattern side pattern flaw.message := by
  induction patterns with
  | nil =>
    have hnil : compileAll side [] = .ok [] := rfl
    simp [hnil]
  | cons pattern patterns ih =>
    rw [compileAll_cons]
    cases hpattern : compile pattern with
    | error flaw =>
      have hrefused : ¬ Compiles pattern := fun ⟨g, hg⟩ => by simp [hpattern] at hg
      constructor
      · intro h
        exact ⟨[], pattern, patterns, flaw, rfl, by simp, hpattern, (Except.error.inj h).symm⟩
      · rintro ⟨before, refused, after, flaw', hcut, hbefore, hflaw', rfl⟩
        cases before with
        | nil =>
          obtain ⟨rfl, rfl⟩ := List.cons.inj hcut
          rw [hpattern, Except.error.injEq] at hflaw'
          rw [hflaw']
        | cons first before =>
          obtain ⟨rfl, rfl⟩ := List.cons.inj hcut
          exact absurd (hbefore pattern List.mem_cons_self) hrefused
    | ok g =>
      have hmap : (compileAll side patterns).map (g :: ·) = .error fault ↔
          compileAll side patterns = .error fault := by
        cases compileAll side patterns <;> simp [Except.map]
      refine hmap.trans (ih.trans ?_)
      constructor
      · rintro ⟨before, refused, after, flaw, rfl, hbefore, hflaw, hfault⟩
        exact ⟨pattern :: before, refused, after, flaw, rfl,
          List.forall_mem_cons.2 ⟨⟨g, hpattern⟩, hbefore⟩, hflaw, hfault⟩
      · rintro ⟨before, refused, after, flaw, hcut, hbefore, hflaw, hfault⟩
        cases before with
        | nil =>
          obtain ⟨rfl, rfl⟩ := List.cons.inj hcut
          simp [hpattern] at hflaw
        | cons first before =>
          obtain ⟨rfl, rfl⟩ := List.cons.inj hcut
          exact ⟨before, refused, after, flaw, rfl, (List.forall_mem_cons.1 hbefore).2, hflaw, hfault⟩

theorem first?_eq_none_iff {patterns : List String} {globs : List Glob}
    (h : List.Forall₂ (fun pattern g => compile pattern = .ok g) patterns globs)
    (subjects : List String) :
    first? globs subjects = none ↔
      ∀ pattern ∈ patterns, ∀ subject ∈ subjects, ¬ Hits pattern subject := by
  induction h with
  | nil => simp [first?]
  | @cons pattern g patterns globs hg hlater ih =>
    have hhits : g.acceptsAny subjects = false ↔ ∀ subject ∈ subjects, ¬ Hits pattern subject := by
      simp [acceptsAny, Hits, hg]
    rw [first?] at ih
    rw [first?, List.find?_cons, List.forall_mem_cons, ← hhits, ← ih]
    cases g.acceptsAny subjects <;> simp

end Glob

namespace PathRules

def Compile (rules : PathRules) : Prop :=
  ∀ pattern ∈ rules.includes ++ rules.excludes, Glob.Compiles pattern

/-- Rules that show a path: none of the excludes matches it under either spelling, and one of the
    includes matches it under the qualified one. -/
def Grant (rules : PathRules) (qualified relative : String) : Prop :=
  (∀ pattern ∈ rules.excludes, ¬ Glob.Hits pattern qualified ∧ ¬ Glob.Hits pattern relative) ∧
    ∃ pattern ∈ rules.includes, Glob.Hits pattern qualified

end PathRules

namespace Matcher

theorem ofRules_eq_ok_iff {rules : PathRules} {m : Matcher} :
    ofRules rules = .ok m ↔
      List.Forall₂ (fun pattern g => Glob.compile pattern = .ok g) rules.includes m.includes ∧
        List.Forall₂ (fun pattern g => Glob.compile pattern = .ok g) rules.excludes m.excludes := by
  rw [← Glob.compileAll_eq_ok_iff .inclusion,
    ← Glob.compileAll_eq_ok_iff .exclusion]
  obtain ⟨includes, excludes⟩ := m
  unfold ofRules
  cases Glob.compileAll .inclusion rules.includes with
  | error fault => simp [bind, Except.bind]
  | ok globs =>
    cases Glob.compileAll .exclusion rules.excludes with
    | error fault => simp [bind, Except.bind]
    | ok globs' => simp [bind, Except.bind, pure, Except.pure]

theorem exists_ofRules_iff {rules : PathRules} :
    (∃ m, ofRules rules = .ok m) ↔ rules.Compile := by
  rw [PathRules.Compile, List.forall_mem_append,
    ← Glob.exists_compileAll_iff .inclusion,
    ← Glob.exists_compileAll_iff .exclusion]
  simp only [ofRules_eq_ok_iff, Glob.compileAll_eq_ok_iff]
  constructor
  · rintro ⟨m, hincludes, hexcludes⟩
    exact ⟨⟨_, hincludes⟩, ⟨_, hexcludes⟩⟩
  · rintro ⟨⟨includes, hincludes⟩, ⟨excludes, hexcludes⟩⟩
    exact ⟨⟨includes, excludes⟩, hincludes, hexcludes⟩

/-- Rules are refused for the first refused pattern of their includes, or else of their excludes. -/
theorem ofRules_eq_error_iff {rules : PathRules} {fault : CheckFault} :
    ofRules rules = .error fault ↔
      Glob.compileAll .inclusion rules.includes = .error fault ∨
        (∀ pattern ∈ rules.includes, Glob.Compiles pattern) ∧
          Glob.compileAll .exclusion rules.excludes = .error fault := by
  rw [← Glob.exists_compileAll_iff .inclusion]
  unfold ofRules
  cases Glob.compileAll .inclusion rules.includes with
  | error fault' => simp [bind, Except.bind]
  | ok globs =>
    cases Glob.compileAll .exclusion rules.excludes with
    | error fault' => simp [bind, Except.bind]
    | ok globs' => simp [bind, Except.bind, pure, Except.pure]

/-- A matcher hides a path by an exclude just when one of the excludes matches either spelling. -/
theorem exists_judge_eq_excluded_iff {rules : PathRules} {m : Matcher} (h : ofRules rules = .ok m)
    (qualified relative : String) :
    (∃ rule, m.judge qualified relative = .excluded rule) ↔
      ∃ pattern ∈ rules.excludes, Glob.Hits pattern qualified ∨ Glob.Hits pattern relative := by
  have hnone := Glob.first?_eq_none_iff (ofRules_eq_ok_iff.1 h).2 [qualified, relative]
  simp only [List.mem_cons, List.not_mem_nil, or_false, forall_eq_or_imp, forall_eq, ← not_or] at hnone
  unfold judge
  cases hfirst : Glob.first? m.excludes [qualified, relative] with
  | none =>
    have hno := hnone.1 hfirst
    refine iff_of_false ?_ ?_
    · cases Glob.first? m.includes [qualified] <;> simp
    · rintro ⟨pattern, hpattern, hhits⟩
      exact hno pattern hpattern hhits
  | some g =>
    refine iff_of_true ⟨g.source, rfl⟩ ?_
    by_contra hno
    simp only [not_exists, not_and] at hno
    rw [hnone.2 hno] at hfirst
    cases hfirst

/-- A matcher shows the paths that the rules show which it was read from. -/
theorem permission_judge_iff {rules : PathRules} {m : Matcher} (h : ofRules rules = .ok m)
    (qualified relative : String) :
    (m.judge qualified relative).permission = .read ↔ rules.Grant qualified relative := by
  obtain ⟨hincludes, hexcludes⟩ := ofRules_eq_ok_iff.1 h
  have hexcluded := Glob.first?_eq_none_iff hexcludes [qualified, relative]
  have hincluded := Glob.first?_eq_none_iff hincludes [qualified]
  simp only [List.mem_cons, List.not_mem_nil, or_false, forall_eq_or_imp, forall_eq]
    at hexcluded hincluded
  rw [PathRules.Grant, ← hexcluded]
  unfold judge
  cases hex : Glob.first? m.excludes [qualified, relative] with
  | some g => simp [Verdict.permission]
  | none =>
    cases hin : Glob.first? m.includes [qualified] with
    | some g =>
      have hsome : ∃ pattern ∈ rules.includes, Glob.Hits pattern qualified := by
        by_contra hno
        simp only [not_exists, not_and] at hno
        rw [hincluded.2 hno] at hin
        cases hin
      simp [Verdict.permission, hsome]
    | none =>
      have hno := hincluded.1 hin
      simpa [Verdict.permission] using hno

end Matcher

end PathGuard
