import PathGuard.Guard
import PathGuard.Proofs.Rules.Matching

/-!
# What checks answer and what they ask

A check is told apart into its answer and what it leaves of the guard, which is the guard with its
store asked some enquiries more. Both are read off once, for the standing of a user; a check of a path
only adds the judgement of the path, and a check for an actor only the cases in which nothing is asked.

## Main definitions

- `Guard.Check.answer`, `Guard.Check.after`: the two outcomes of a check
- `Guard.asked`: a guard whose store has been asked
- `Guard.standingOf`, `Guard.enquiries`: the standing of a user, and what is asked to find it out

## Main results

- `Guard.standing_run`, `Guard.check_run`, `Guard.checkActor_run`: checks without their monad
-/

namespace PathGuard

/-- The probe after enquiries, each of which it has counted. -/
def Probe.asked (p : Probe) (es : List Enquiry) : Probe :=
  { p with
    supportCalls := p.supportCalls + es.count .support
    rulesCalls := p.rulesCalls + es.count .rules }

/-- A probe that answers as a store does to what is asked about a user and a repository. -/
def Probe.Mirrors (p : Probe) (store : Store) (user : UserId) (repo : RepoName) : Prop :=
  (p.supports repo).1 = (store.supports repo).1 ∧ (p.rulesOf user).1 = (store.rulesOf user).1

theorem Probe.exists_mirrors (store : Store) (user : UserId) (repo : RepoName) :
    ∃ p : Probe, p.Mirrors store user repo := by
  cases store with
  | probe p => exact ⟨p, rfl, rfl⟩
  | ledger l =>
    refine ⟨⟨l, if l.supports repo then [] else [repo], none, none, 0, 0⟩, ?_, rfl⟩
    cases h : l.supports repo <;> simp [Probe.supports, Store.supports, h]

/-- The store after enquiries. A ledger does not count them. -/
def Store.asked (es : List Enquiry) : Store → Store
  | .ledger l => .ledger l
  | .probe p => .probe (p.asked es)

theorem Store.supports_snd (store : Store) (repo : RepoName) :
    (store.supports repo).2 = store.asked [.support] := by
  cases store <;> rfl

theorem Store.rulesOf_snd (store : Store) (user : UserId) :
    (store.rulesOf user).2 = store.asked [.rules] := by
  cases store <;> rfl

theorem Store.rulesOf_asked_fst (store : Store) (es : List Enquiry) (user : UserId) :
    ((store.asked es).rulesOf user).1 = (store.rulesOf user).1 := by
  cases store <;> rfl

theorem Store.asked_asked (store : Store) (es later : List Enquiry) :
    (store.asked es).asked later = store.asked (es ++ later) := by
  cases store with
  | ledger l => rfl
  | probe p => simp [Store.asked, Probe.asked, List.count_append, Nat.add_assoc]

theorem Store.asked_nil (store : Store) : store.asked [] = store := by
  cases store <;> rfl

namespace Guard

def Check.answer {α : Type} (c : Check α) (guard : Guard) : Except CheckFault α :=
  (c.run.run guard).1

def Check.after {α : Type} (c : Check α) (guard : Guard) : Guard :=
  (c.run.run guard).2

def asked (guard : Guard) (es : List Enquiry) : Guard :=
  { guard with store := guard.store.map (·.asked es) }

theorem asked_nil (guard : Guard) : guard.asked [] = guard := by
  obtain ⟨enforced, _ | store⟩ := guard
  · rfl
  · simp [asked, Store.asked_nil]

/-- The enquiries that the standing of a user takes. -/
def enquiries (guard : Guard) (user : UserId) (repo : RepoName) : List Enquiry :=
  if guard.enforced = false ∨ user = 0 then []
  else
    match guard.store with
    | none => []
    | some store =>
      match (store.supports repo).1 with
      | .ok true => [.support, .rules]
      | _ => [.support]

/-- The standing of a user, as the store's answers give it. -/
def standingOf (guard : Guard) (user : UserId) (repo : RepoName) : Except CheckFault Standing :=
  if guard.enforced = false then .ok .unrestricted
  else if user = 0 then .error .unauthenticated
  else
    match guard.store with
    | none => .error .noStore
    | some store =>
      match (store.supports repo).1 with
      | .error cause => .error (.store .support cause)
      | .ok false => .ok .unrestricted
      | .ok true =>
        match (store.rulesOf user).1 with
        | .error cause => .error (.store .rules cause)
        | .ok byRepo =>
          match byRepo.lookup repo with
          | none => .ok .unlisted
          | some rules => (Matcher.ofRules rules).map .ruled

section Running

variable {α β : Type} (guard : Guard)

theorem Check.run_bind (c : Check α) (f : α → Check β) :
    (c >>= f).run.run guard =
      match c.run.run guard with
      | (.ok a, after) => (f a).run.run after
      | (.error fault, after) => (.error fault, after) := by
  rw [ExceptT.run_bind, StateT.run_bind]
  rcases c.run.run guard with ⟨_ | a, after⟩ <;> rfl

theorem Check.run_get : (get : Check Guard).run.run guard = (.ok guard, guard) :=
  rfl

theorem ask_support_run (enforced : Bool) (store : Store) (repo : RepoName) :
    (ask .support (Store.supports repo)).run.run ⟨enforced, some store⟩ =
      ((store.supports repo).1.mapError (.store .support),
        ⟨enforced, some (store.asked [.support])⟩) := by
  rw [← Store.supports_snd store repo]
  rfl

theorem ask_rules_run (enforced : Bool) (store : Store) (user : UserId) :
    (ask .rules (Store.rulesOf user)).run.run ⟨enforced, some store⟩ =
      ((store.rulesOf user).1.mapError (.store .rules),
        ⟨enforced, some (store.asked [.rules])⟩) := by
  rw [← Store.rulesOf_snd store user]
  rfl

/-- Finding out how a user stands to a repository asks the store in order, and stops at the first
    answer that settles it. -/
theorem standing_run (user : UserId) (repo : RepoName) :
    (standing user repo).run.run guard =
      (guard.standingOf user repo, guard.asked (guard.enquiries user repo)) := by
  obtain ⟨enforced, store⟩ := guard
  cases enforced with
  | false =>
    simp only [standingOf, enquiries, if_true, true_or, asked_nil]
    rfl
  | true =>
    by_cases huser : user = 0
    · subst huser
      simp only [standingOf, enquiries, if_true, or_true, asked_nil]
      rfl
    · simp only [standing, standingOf, enquiries, asked, Check.run_bind, Check.run_get, huser,
        if_true, if_false, Bool.true_eq_false, or_self]
      cases store with
      | none => rfl
      | some store =>
        -- each answer that settles the standing is a case, in the order in which the store is asked
        simp only [ask_support_run, Option.map_some]
        cases (store.supports repo).1 with
        | error cause => rfl
        | ok supported =>
          cases supported with
          | false => rfl
          | true =>
            simp only [Except.mapError, if_true, Check.run_bind, ask_rules_run,
              Store.rulesOf_asked_fst, Store.asked_asked]
            cases (store.rulesOf user).1 with
            | error cause => rfl
            | ok byRepo =>
              dsimp only
              cases byRepo.lookup repo with
              | none => rfl
              | some rules =>
                dsimp only
                cases Matcher.ofRules rules <;> rfl

theorem check_run (user : UserId) (repo : RepoName) (path : String) :
    (check user repo path).run.run guard =
      ((guard.standingOf user repo).map (·.permission repo path),
        guard.asked (guard.enquiries user repo)) := by
  rw [check, Check.run_bind, standing_run]
  cases guard.standingOf user repo <;> rfl

/-- A check for an actor is settled at once while nothing is enforced and for the system, and is the
    check of the actor's user otherwise. -/
theorem checkActor_run (actor : Actor) (repo : RepoName) (path : String) :
    (checkActor actor repo path).run.run guard =
      if guard.enforced = false ∨ actor.internal = true then (.ok .read, guard)
      else (check actor.user repo path).run.run guard := by
  obtain ⟨user, internal⟩ := actor
  obtain ⟨enforced, store⟩ := guard
  simp only [checkActor, Check.run_bind, Check.run_get]
  cases enforced with
  | false => rfl
  | true =>
    cases internal with
    | true => rfl
    | false =>
      by_cases huser : user = 0
      · subst huser
        have hquiet : (⟨true, store⟩ : Guard).enquiries 0 repo = [] := rfl
        rw [check_run, hquiet, asked_nil]
        rfl
      · simp [Actor.isAuthenticated, huser]

end Running

end Guard

end PathGuard
