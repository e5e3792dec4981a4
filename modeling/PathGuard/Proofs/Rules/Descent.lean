import PathGuard.Proofs.Glob.Descent
import PathGuard.Proofs.Rules.Matching

/-!
# Excludes of whole subtrees

Excludes that are two stars, or end in a slash and two stars, hide all that lies below what they hide,
whatever pattern stands before the slash. This is said of both spellings of a path at once.

## Main results

- `Matcher.judge_below_of_isWide`: what such excludes hide, they hide with everything below
-/

namespace PathGuard.Matcher

variable {rules : PathRules} {m : Matcher}

/-- If all excludes end in a slash and two stars, or are two stars, then below a path that one of them
    hides there is nothing that they do not hide. -/
theorem judge_below_of_isWide (hm : ofRules rules = .ok m)
    (hwide : ∀ pattern ∈ rules.excludes, Glob.IsWide pattern) {qualified relative : String}
    (h : ∃ rule, m.judge qualified relative = .excluded rule) (below : String) :
    ∃ rule, m.judge (qualified ++ "/" ++ below) (relative ++ "/" ++ below) = .excluded rule := by
  rw [exists_judge_eq_excluded_iff hm] at h ⊢
  obtain ⟨pattern, hpattern, hhits⟩ := h
  have happend : ∀ {subject : String}, Glob.Hits pattern subject →
      Glob.Hits pattern (subject ++ "/" ++ below) := by
    intro subject hsubject
    have hmore := hsubject.append (hwide pattern hpattern) ("/" ++ below)
    rwa [← String.append_assoc] at hmore
  exact ⟨pattern, hpattern, hhits.imp happend happend⟩

/-- Rules that hide the directories of keys by a pattern with a group, a class and an escape. -/
def keyRules : PathRules :=
  ⟨["r/**"], ["r/\x7blib,[a-c]\\/key?\x7d/**", "**/\\*/**"]⟩

theorem judge_below_of_isWide_keys :
    ∃ m, ofRules keyRules = .ok m ∧ (∀ pattern ∈ keyRules.excludes, Glob.IsWide pattern) ∧
      (∃ rule, m.judge "r/b/keys/a" "b/keys/a" = .excluded rule) ∧
      ∃ rule, m.judge "r/b/keys/a/x/y" "b/keys/a/x/y" = .excluded rule := by
  have hwide : ∀ pattern ∈ keyRules.excludes, Glob.IsWide pattern := by
    intro pattern hpattern
    simp only [keyRules, List.mem_cons, List.not_mem_nil, or_false] at hpattern
    rcases hpattern with rfl | rfl
    · exact .inr ⟨"r/\x7blib,[a-c]\\/key?\x7d", rfl⟩
    · exact .inr ⟨"**/\\*", rfl⟩
  obtain ⟨m, hm⟩ : ∃ m, ofRules keyRules = .ok m := ⟨_, rfl⟩
  have hjudge : ∃ rule, m.judge "r/b/keys/a" "b/keys/a" = .excluded rule := by
    obtain rfl := Except.ok.inj hm
    exact ⟨"r/\x7blib,[a-c]\\/key?\x7d/**", by decide +kernel⟩
  exact ⟨m, hm, hwide, hjudge, judge_below_of_isWide hm hwide hjudge "x/y"⟩

end PathGuard.Matcher
