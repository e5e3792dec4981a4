import PathGuard.Proofs.Guard.Provenance

/-!
# Checks over a ledger

Checks only ask. What they leave of a guard is the guard with its store asked some enquiries more, and a
ledger does not remember these. So a check over a ledger is decided by the switch and by what the
ledger says of the user and the repository, and leaves everything as it was.

## Main definitions

- `Guard.decision`: the decision from the switch and from what a ledger says

## Main results

- `Guard.exists_after_readable`: what checks of several paths leave
- `Guard.answer_check_of_ledger`: a check over a ledger is the decision
-/

namespace PathGuard.Guard

variable {guard : Guard} {l : Ledger}

/-! ### What checks leave -/

theorem asked_asked (guard : Guard) (es later : List Enquiry) :
    (guard.asked es).asked later = guard.asked (es ++ later) := by
  obtain ⟨enforced, _ | store⟩ := guard
  · rfl
  · simp [asked, Store.asked_asked]

@[simp] theorem enforced_asked (guard : Guard) (es : List Enquiry) :
    (guard.asked es).enforced = guard.enforced :=
  rfl

theorem asked_of_ledger (hstore : guard.store = some (.ledger l)) (es : List Enquiry) :
    guard.asked es = guard := by
  obtain ⟨enforced, store⟩ := guard
  obtain rfl : store = some (.ledger l) := hstore
  rfl

theorem after_check (guard : Guard) (user : UserId) (repo : RepoName) (path : String) :
    (check user repo path).after guard = guard.asked (guard.enquiries user repo) := by
  rw [Check.after, check_run]

theorem exists_after_checkActor (guard : Guard) (actor : Actor) (repo : RepoName) (path : String) :
    ∃ es, (checkActor actor repo path).after guard = guard.asked es := by
  rw [Check.after, checkActor_run]
  split
  · exact ⟨[], (asked_nil guard).symm⟩
  · exact ⟨_, after_check guard actor.user repo path⟩

/-- Checking several paths leaves the guard with its store asked for each of them, up to the first
    check that fails. -/
theorem exists_after_readable (guard : Guard) (actor : Actor) (repo : RepoName)
    (paths : List String) :
    ∃ es, (readable actor repo paths).after guard = guard.asked es := by
  induction paths generalizing guard with
  | nil => exact ⟨[], (asked_nil guard).symm⟩
  | cons path paths ih =>
    obtain ⟨es, hfirst⟩ := exists_after_checkActor guard actor repo path
    obtain ⟨es', hlater⟩ := ih (guard.asked es)
    rw [Check.after] at hfirst hlater ⊢
    rw [readable, Check.run_bind]
    rcases hcheck : (checkActor actor repo path).run.run guard with ⟨fault | permission, next⟩
    · rw [hcheck] at hfirst
      exact ⟨es, hfirst⟩
    · obtain rfl : next = guard.asked es := by rw [← hfirst, hcheck]
      simp only [Check.run_bind]
      rcases hrest : (readable actor repo paths).run.run (guard.asked es) with ⟨fault | later, last⟩
      · rw [hrest] at hlater
        exact ⟨es ++ es', by rw [← asked_asked, ← hlater]⟩
      · rw [hrest] at hlater
        exact ⟨es ++ es', by rw [← asked_asked, ← hlater]; rfl⟩

/-! ### What a check answers -/

/-- The decision on a path, from the switch, from whether the repository has path rules, and from the
    rules of the user for it. -/
def decision (enforced supported : Bool) (rules? : Option PathRules) (user : UserId)
    (repo : RepoName) (path : String) : Except CheckFault Permission :=
  if enforced = false then .ok .read
  else if user = 0 then .error .unauthenticated
  else if supported = false then .ok .read
  else
    match rules? with
    | none => .ok .none
    | some rules => (Matcher.ofRules rules).map fun m => (m.judgeIn repo path).permission

/-- A check over a ledger is decided by the switch and by what the ledger says of the user and the
    repository. -/
theorem answer_check_of_ledger (hstore : guard.store = some (.ledger l)) (user : UserId)
    (repo : RepoName) (path : String) :
    (check user repo path).answer guard =
      decision guard.enforced (l.supports repo) (l.rules? user repo) user repo path := by
  rw [answer_check, standingOf, hstore]
  unfold decision
  by_cases henforced : guard.enforced = false
  · rw [if_pos henforced, if_pos henforced]
    rfl
  · rw [if_neg henforced, if_neg henforced]
    by_cases huser : user = 0
    · rw [if_pos huser, if_pos huser]
      rfl
    · rw [if_neg huser, if_neg huser, Ledger.rules?]
      simp only [Store.supports, Store.rulesOf]
      cases l.supports repo with
      | false => rfl
      | true =>
        cases (l.rulesOf user).lookup repo with
        | none => rfl
        | some rules => cases hm : Matcher.ofRules rules <;> simp [hm, Except.map, Standing.permission]

end PathGuard.Guard
