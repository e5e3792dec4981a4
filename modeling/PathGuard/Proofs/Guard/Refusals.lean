import PathGuard.Proofs.Guard.Provenance
import PathGuard.Proofs.Rules.Alone

/-!
# Refused rules

One pattern that is refused fails every check of the user whose rules have it, also on paths that other
patterns settle, and the fault names the first such pattern. Rules without one settle each path as their
patterns do on their own.

## Main results

- `Guard.answer_check_blames`: when and how checks fail for a pattern, and what they answer otherwise
-/

namespace PathGuard.Guard

variable {guard : Guard} {user : UserId} {repo : RepoName} {rules : PathRules}

/-- A check of a user with rules fails just for the fault of the rules, whatever the path is. -/
theorem answer_check_eq_error_iff (henforced : guard.enforced = true)
    (h : guard.HasRules user repo rules) (path : String) (fault : CheckFault) :
    (check user repo path).answer guard = .error fault ↔ rules.Blames fault := by
  rw [answer_check, standingOf_of_hasRules henforced h, ← Matcher.ofRules_eq_error_iff_blames]
  cases Matcher.ofRules rules <;> simp [Except.map]

/-- Where no pattern is refused the path is settled by what each pattern does on its own. -/
theorem answer_check_eq_verdict (henforced : guard.enforced = true)
    (h : guard.HasRules user repo rules) (hnone : ¬ ∃ fault, rules.Blames fault) (path : String) :
    (check user repo path).answer guard =
      .ok (rules.verdict (Path.join [repo, path]) (Path.join [path])).permission := by
  cases hm : Matcher.ofRules rules with
  | error fault => exact absurd ⟨fault, Matcher.ofRules_eq_error_iff_blames.1 hm⟩ hnone
  | ok m =>
    rw [answer_check, standingOf_of_hasRules henforced h, hm, ← Matcher.judge_eq_verdict hm]
    rfl

/-- Rules have a fault if one of their patterns is refused on its own: that of the first refused include,
    or else of the first refused exclude, with the pattern as it is listed and the reason for which it is
    refused on its own. Rules are not read just for their fault, and each check of a user who has them
    fails just for it, whatever the path is. Otherwise a path is settled as the patterns settle it on
    their own, and of a list that is read the first pattern is found that matches on its own. -/
theorem answer_check_blames (rules : PathRules) :
    ((∃ fault, rules.Blames fault) ↔
      ∃ side, ∃ pattern ∈ rules.listed side, ¬ Glob.IsAccepted side pattern) ∧
    (∀ fault, Matcher.ofRules rules = .error fault ↔ rules.Blames fault) ∧
    (∀ (guard : Guard) (user : UserId) (repo : RepoName), guard.enforced = true →
        guard.HasRules user repo rules → ∀ path,
      (∀ fault, (check user repo path).answer guard = .error fault ↔ rules.Blames fault) ∧
      ((¬ ∃ fault, rules.Blames fault) → (check user repo path).answer guard =
        .ok (rules.verdict (Path.join [repo, path]) (Path.join [path])).permission)) ∧
    (∀ m, Matcher.ofRules rules = .ok m → ∀ qualified relative,
      m.judge qualified relative = rules.verdict qualified relative) ∧
    ∀ side patterns, (∀ pattern ∈ patterns, Glob.IsAccepted side pattern) →
      ∃ globs, Glob.compileAll side patterns = .ok globs ∧ ∀ subjects,
        (Glob.first? globs subjects).map (·.source) =
          patterns.find? (Glob.matchesAlone side subjects) := by
  refine ⟨PathRules.exists_blames_iff, fun fault => Matcher.ofRules_eq_error_iff_blames,
    fun guard user repo henforced h path => ⟨answer_check_eq_error_iff henforced h path,
      fun hnone => answer_check_eq_verdict henforced h hnone path⟩,
    fun m hm => Matcher.judge_eq_verdict hm, fun side patterns haccepted => ?_⟩
  obtain ⟨globs, hglobs⟩ := (Glob.exists_compileAll_iff side).2 fun pattern hpattern =>
    Glob.isAccepted_iff.1 (haccepted pattern hpattern)
  exact ⟨globs, hglobs, Glob.source_first? hglobs⟩

/-- A path that the first include shows is not shown where a later one is refused, and the include is
    blamed although an exclude is refused too. -/
theorem answer_check_blames_include :
    (check 5 "r" "a.rs").answer (only 5 "r" ⟨["r/**", "r/[a", "\x7b"], ["r/\x7b", "r/*"]⟩) =
      .error (.refusedPattern .inclusion "r/[a" "unclosed character class; missing ']'") := by
  let rules : PathRules := ⟨["r/**", "r/[a", "\x7b"], ["r/\x7b", "r/*"]⟩
  have hfirst : Glob.FirstRefused .inclusion rules.includes "r/[a"
      "unclosed character class; missing ']'" := by
    refine ⟨["r/**"], ["\x7b"], rfl, fun earlier hearlier => ?_, rfl⟩
    rw [List.mem_singleton.1 hearlier]
    exact ⟨_, rfl⟩
  obtain ⟨-, -, hcheck, -⟩ := answer_check_blames rules
  exact ((hcheck _ 5 "r" rfl (only_hasRules (by decide) "r" rules) "a.rs").1 _).2 (.inclusion hfirst)

end PathGuard.Guard
