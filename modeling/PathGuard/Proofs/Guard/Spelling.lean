import PathGuard.Proofs.Guard.Provenance

/-!
# Spellings of a path

A path is judged under two spellings that are cleaned apart, the qualified and the relative one. Paths
with the same qualified spelling need not have the same relative one: the latter keeps a slash in
front, and the steps that lead out of the repository and back. An exclude that is written without the
repository then hides the one and not the other.

## Main results

- `Guard.answer_check_respelled_iff`: when two spellings of a path are answered alike
- `Guard.answer_check_respelled_differs`: a hidden path that a slash in front shows
-/

namespace PathGuard

theorem Permission.eq_of_eq_read_iff {a b : Permission} (h : a = .read ↔ b = .read) : a = b := by
  cases a <;> cases b <;> simp_all

namespace Glob

theorem hits_doubleStar (subject : String) : Hits "**" subject := by
  have htokens : Token.ofString "**" = .ok [.leading] := rfl
  exact (hits_iff_of_tokens htokens).2 (.inl rfl)

end Glob

namespace Guard

variable {repo : RepoName} {p q : String}

/-- A guard with rules that show everything but the paths spelled in a given way. -/
def allBut (repo : RepoName) (text : String) : Guard :=
  only 1 repo ⟨["**"], [Glob.quote text]⟩

theorem answer_check_allBut (repo : RepoName) (text path : String) :
    (check 1 repo path).answer (allBut repo text) = .ok .read ↔
      Path.join [repo, path] ≠ text ∧ Path.join [path] ≠ text := by
  have hcompile : PathRules.Compile ⟨["**"], [Glob.quote text]⟩ := by
    have hall : Glob.Compiles "**" := (Glob.hits_doubleStar "").imp fun _ h => h.1
    simpa [PathRules.Compile] using ⟨hall, Glob.compiles_quote text⟩
  have hrules := only_hasRules (by decide : (1 : UserId) ≠ 0) repo ⟨["**"], [Glob.quote text]⟩
  rw [allBut, (answer_check_of_hasRules rfl hrules hcompile path).2]
  simp [PathRules.Grant, Glob.hits_quote_iff, Glob.hits_doubleStar]

theorem answer_check_eq_iff (guard : Guard) (user : UserId) :
    (check user repo p).answer guard = (check user repo q).answer guard ↔
      ∀ rules, guard.enforced = true → guard.HasRules user repo rules → rules.Compile →
        (rules.Grant (Path.join [repo, p]) (Path.join [p]) ↔
          rules.Grant (Path.join [repo, q]) (Path.join [q])) := by
  constructor
  · intro h rules henforced hrules hcompile
    rw [← (answer_check_of_hasRules henforced hrules hcompile p).2,
      ← (answer_check_of_hasRules henforced hrules hcompile q).2, h]
  · intro h
    rw [answer_check, answer_check]
    cases hstanding : guard.standingOf user repo with
    | error fault => rfl
    | ok standing =>
      rcases standingOf_eq_ok hstanding with
        ⟨rfl, -⟩ | ⟨rfl, -⟩ | ⟨rules, m, rfl, henforced, hrules, hm⟩
      · rfl
      · rfl
      · have hgrant := h rules henforced hrules (Matcher.exists_ofRules_iff.1 ⟨m, hm⟩)
        rw [← Matcher.permission_judge_iff hm, ← Matcher.permission_judge_iff hm] at hgrant
        exact congrArg Except.ok (Permission.eq_of_eq_read_iff hgrant)

/-- Paths with the same qualified spelling are answered alike under every state just when they have the
    same relative spelling as well: otherwise one of the relative spellings is not the qualified one,
    and may be hidden alone. -/
theorem forall_answer_check_eq_iff (h : Path.join [repo, p] = Path.join [repo, q]) :
    (∀ guard user, (check user repo p).answer guard = (check user repo q).answer guard) ↔
      Path.join [p] = Path.join [q] := by
  constructor
  · intro hsame
    by_contra hne
    -- hide one relative spelling: the other path is shown, unless it is hidden under its qualified one
    have hp := hsame (allBut repo (Path.join [p])) 1
    have hq := hsame (allBut repo (Path.join [q])) 1
    have hreadp := answer_check_allBut repo (Path.join [p])
    have hreadq := answer_check_allBut repo (Path.join [q])
    by_cases hqualified : Path.join [repo, q] = Path.join [p]
    · have hshown : (check 1 repo p).answer (allBut repo (Path.join [q])) = .ok .read := by
        rw [hreadq, h, hqualified]
        exact ⟨hne, hne⟩
      rw [hq, hreadq] at hshown
      exact hshown.2 rfl
    · have hshown : (check 1 repo q).answer (allBut repo (Path.join [p])) = .ok .read :=
        (hreadp q).2 ⟨hqualified, Ne.symm hne⟩
      rw [← hp, hreadp] at hshown
      exact hshown.2 rfl
  · intro hsame guard user
    rw [answer_check_eq_iff, h, hsame]
    exact fun _ _ _ _ => Iff.rfl

/-- Two paths with the same qualified spelling are answered alike under a state unless the rules of the
    user show the one relative spelling and not the other, and under all states just when the relative
    spellings are the same too. -/
theorem answer_check_respelled_iff (h : Path.join [repo, p] = Path.join [repo, q]) :
    (∀ guard user, (check user repo p).answer guard = (check user repo q).answer guard ↔
      ∀ rules, guard.enforced = true → guard.HasRules user repo rules → rules.Compile →
        (rules.Grant (Path.join [repo, p]) (Path.join [p]) ↔
          rules.Grant (Path.join [repo, p]) (Path.join [q]))) ∧
    ((∀ guard user, (check user repo p).answer guard = (check user repo q).answer guard) ↔
      Path.join [p] = Path.join [q]) := by
  refine ⟨fun guard user => ?_, forall_answer_check_eq_iff h⟩
  rw [answer_check_eq_iff, h]

theorem answer_check_respelled_inside :
    Path.join ["r", "a//../secret/key"] = Path.join ["r", "secret/./key"] ∧
      ∀ guard user, (check user "r" "a//../secret/key").answer guard =
        (check user "r" "secret/./key").answer guard := by
  have h : Path.join ["r", "a//../secret/key"] = Path.join ["r", "secret/./key"] := by decide
  exact ⟨h, (answer_check_respelled_iff h).2.2 (by decide)⟩

/-- A path that an exclude hides is shown with a slash in front, though that spells the same path of the
    repository. -/
theorem answer_check_respelled_differs :
    ∃ (guard : Guard) (user : UserId) (repo : RepoName) (p q : String),
      Path.join [repo, p] = Path.join [repo, q] ∧
        (check user repo p).answer guard = .ok .none ∧
        (check user repo q).answer guard = .ok .read := by
  refine ⟨only 5 "r" ⟨["r/**"], ["secret/**"]⟩, 5, "r", "secret/key.pem", "/secret/key.pem",
    ?_, ?_, ?_⟩
  all_goals decide +kernel

end Guard

end PathGuard
