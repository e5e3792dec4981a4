import PathGuard.Proofs.Guard.Checks

/-!
# Where permission to read comes from

There are four grounds on which an actor may read a path: nothing is enforced, the actor is the
system, the repository has no path rules, or the rules of the actor's user show the path. A check
answers that the path may be read on these grounds and on no other, and asks the store no more than
it takes to find out.

## Main definitions

- `Guard.HasRules`: the store holds rules of a user for a repository
- `Guard.Shows`: the four grounds

## Main results

- `Guard.standingOf_eq_ok`: how each standing comes about
- `Guard.answer_check_of_hasRules`: a user with rules is judged by them
- `Guard.checkActor_provenance`: when a path is read, and what has been asked by then
-/

namespace PathGuard.Guard

/-- The store takes a repository for one with path rules, and holds rules of a user for it. -/
structure HasRules (guard : Guard) (user : UserId) (repo : RepoName) (rules : PathRules) : Prop where
  known : user ≠ 0
  listed : ∃ store byRepo, guard.store = some store ∧ (store.supports repo).1 = .ok true ∧
    (store.rulesOf user).1 = .ok byRepo ∧ byRepo.lookup repo = some rules

/-- The grounds on which an actor may read a path of a repository. -/
inductive Shows (guard : Guard) (actor : Actor) (repo : RepoName) (path : String) : Prop where
  | unenforced (h : guard.enforced = false)
  | system (h : actor.internal = true)
  | unsupported (store : Store) (known : actor.user ≠ 0) (hstore : guard.store = some store)
      (h : (store.supports repo).1 = .ok false)
  | granted (rules : PathRules) (h : guard.HasRules actor.user repo rules)
      (hcompile : rules.Compile) (hgrant : rules.Grant (Path.join [repo, path]) (Path.join [path]))

/-- A guard with the rules of one user for one repository. -/
def only (user : UserId) (repo : RepoName) (rules : PathRules) : Guard :=
  ⟨true, some (.ledger ⟨[⟨user, repo, rules⟩], [repo]⟩)⟩

variable {guard : Guard} {user : UserId} {repo : RepoName}

theorem only_hasRules (huser : user ≠ 0) (repo : RepoName) (rules : PathRules) :
    (only user repo rules).HasRules user repo rules := by
  refine ⟨huser, _, [(repo, rules)], rfl, ?_, ?_, ?_⟩
  · simp [Store.supports, Ledger.supports]
  · simp [Store.rulesOf, Ledger.rulesOf]
  · simp

theorem standingOf_eq_ok {standing : Standing} (h : guard.standingOf user repo = .ok standing) :
    (standing = .unrestricted ∧ (guard.enforced = false ∨
      user ≠ 0 ∧ ∃ store, guard.store = some store ∧ (store.supports repo).1 = .ok false)) ∨
    (standing = .unlisted ∧ guard.enforced = true ∧ user ≠ 0 ∧
      ∃ store byRepo, guard.store = some store ∧ (store.supports repo).1 = .ok true ∧
        (store.rulesOf user).1 = .ok byRepo ∧ byRepo.lookup repo = none) ∨
    ∃ rules m, standing = .ruled m ∧ guard.enforced = true ∧ guard.HasRules user repo rules ∧
      Matcher.ofRules rules = .ok m := by
  -- the cases follow the definition, from the switch down to the patterns
  unfold standingOf at h
  split at h
  · next henforced => exact .inl ⟨(Except.ok.inj h).symm, .inl henforced⟩
  · next henforced =>
    rw [Bool.not_eq_false] at henforced
    split at h
    · cases h
    · next huser =>
      split at h
      · cases h
      · next store hstore =>
        split at h
        · cases h
        · next hsupport =>
          exact .inl ⟨(Except.ok.inj h).symm, .inr ⟨huser, store, hstore, hsupport⟩⟩
        · next hsupport =>
          split at h
          · cases h
          · next byRepo hbyRepo =>
            split at h
            · next hnone =>
              exact .inr (.inl ⟨(Except.ok.inj h).symm, henforced, huser, store, byRepo, hstore,
                hsupport, hbyRepo, hnone⟩)
            · next rules hrules =>
              cases hm : Matcher.ofRules rules with
              | error fault => simp [hm, Except.map] at h
              | ok m =>
                rw [hm] at h
                exact .inr (.inr ⟨rules, m, (Except.ok.inj h).symm, henforced,
                  ⟨huser, store, byRepo, hstore, hsupport, hbyRepo, hrules⟩, hm⟩)

theorem standingOf_of_hasRules {rules : PathRules} (henforced : guard.enforced = true)
    (h : guard.HasRules user repo rules) :
    guard.standingOf user repo = (Matcher.ofRules rules).map .ruled := by
  obtain ⟨huser, store, byRepo, hstore, hsupport, hbyRepo, hrules⟩ := h
  simp [standingOf, henforced, huser, hstore, hsupport, hbyRepo, hrules]

theorem answer_check (guard : Guard) (user : UserId) (repo : RepoName) (path : String) :
    (check user repo path).answer guard =
      (guard.standingOf user repo).map (·.permission repo path) := by
  rw [Check.answer, check_run]

/-- A user whose rules are read is judged by them, and the check does not fail. -/
theorem answer_check_of_hasRules {rules : PathRules} (henforced : guard.enforced = true)
    (h : guard.HasRules user repo rules) (hcompile : rules.Compile) (path : String) :
    ((check user repo path).answer guard = .ok .read ∨
      (check user repo path).answer guard = .ok .none) ∧
    ((check user repo path).answer guard = .ok .read ↔
      rules.Grant (Path.join [repo, path]) (Path.join [path])) := by
  obtain ⟨m, hm⟩ := Matcher.exists_ofRules_iff.2 hcompile
  have hanswer : (check user repo path).answer guard = .ok (m.judgeIn repo path).permission := by
    rw [answer_check, standingOf_of_hasRules henforced h, hm]
    rfl
  rw [hanswer, ← Matcher.permission_judge_iff hm, Except.ok.injEq, Except.ok.injEq]
  refine ⟨?_, Iff.rfl⟩
  cases (m.judgeIn repo path).permission <;> simp

theorem answer_check_eq_read_iff (guard : Guard) (user : UserId) (repo : RepoName) (path : String) :
    (check user repo path).answer guard = .ok .read ↔
      guard.Shows (.ofUser user) repo path := by
  constructor
  · intro h
    rw [answer_check] at h
    cases hstanding : guard.standingOf user repo with
    | error fault => simp [hstanding, Except.map] at h
    | ok standing =>
      rw [hstanding] at h
      have hread : standing.permission repo path = .read := Except.ok.inj h
      rcases standingOf_eq_ok hstanding with
        ⟨-, henforced | ⟨huser, store, hstore, hsupport⟩⟩ | ⟨rfl, -⟩ |
        ⟨rules, m, rfl, -, hrules, hm⟩
      · exact .unenforced henforced
      · exact .unsupported store huser hstore hsupport
      · cases hread
      · exact .granted rules hrules (Matcher.exists_ofRules_iff.1 ⟨m, hm⟩)
          ((Matcher.permission_judge_iff hm _ _).1 hread)
  · intro h
    cases henforced : guard.enforced with
    | false =>
      rw [answer_check, standingOf, if_pos henforced]
      rfl
    | true =>
      cases h with
      | unenforced h => rw [henforced] at h; cases h
      | system h => cases h
      | unsupported store known hstore h =>
        have huser : user ≠ 0 := known
        rw [answer_check]
        simp [standingOf, henforced, huser, hstore, h, Except.map, Standing.permission]
      | granted rules h hcompile hgrant =>
        exact (answer_check_of_hasRules henforced h hcompile path).2.2 hgrant

theorem standingOf_mirrored {store : Store} {probe : Probe} (hstore : guard.store = some store)
    (hmirrors : probe.Mirrors store user repo) :
    ({ guard with store := some (.probe probe) } : Guard).standingOf user repo =
      guard.standingOf user repo := by
  have hsupport : ((Store.probe probe).supports repo).1 = (store.supports repo).1 := hmirrors.1
  have hrules : ((Store.probe probe).rulesOf user).1 = (store.rulesOf user).1 := hmirrors.2
  simp only [standingOf, hstore, hsupport, hrules]

theorem checkActor_run_of_internal_eq_false (guard : Guard) {actor : Actor}
    (hactor : actor.internal = false) (repo : RepoName) (path : String) :
    (checkActor actor repo path).run.run guard =
      (check actor.user repo path).run.run guard := by
  rw [checkActor_run]
  cases henforced : guard.enforced with
  | false =>
    have hquiet : guard.enquiries actor.user repo = [] := by simp [enquiries, henforced]
    rw [check_run, hquiet, asked_nil, standingOf, if_pos henforced]
    simp [Except.map, Standing.permission]
  | true => simp [hactor]

theorem answer_checkActor_eq_read_iff (guard : Guard) (actor : Actor) (repo : RepoName)
    (path : String) :
    (checkActor actor repo path).answer guard = .ok .read ↔ guard.Shows actor repo path := by
  obtain ⟨user, internal⟩ := actor
  cases internal with
  | true => simp [Check.answer, checkActor_run, Shows.system]
  | false =>
    rw [Check.answer, checkActor_run_of_internal_eq_false guard rfl]
    exact answer_check_eq_read_iff guard user repo path

theorem after_checkActor_of_settled {actor : Actor}
    (h : guard.enforced = false ∨ actor.internal = true ∨ actor.isAuthenticated = false ∨
      guard.store = none) (repo : RepoName) (path : String) :
    (checkActor actor repo path).after guard = guard := by
  rw [Check.after, checkActor_run]
  split
  · rfl
  · next hsettled =>
    rw [not_or] at hsettled
    have hquiet : guard.enquiries actor.user repo = [] := by
      rcases h with h | h | h | h
      · exact absurd h hsettled.1
      · exact absurd h hsettled.2
      · have huser : actor.user = 0 := by
          simp only [Actor.isAuthenticated, Bool.or_eq_false_iff] at h
          simpa using h.2
        simp [enquiries, huser]
      · simp [enquiries, h]
    rw [check_run, hquiet, asked_nil]

theorem after_checkActor_of_store {actor : Actor} {store : Store} (henforced : guard.enforced = true)
    (hinternal : actor.internal = false) (hactor : actor.isAuthenticated = true)
    (hstore : guard.store = some store) (repo : RepoName) (path : String) :
    ((store.supports repo).1 = .ok true →
      (checkActor actor repo path).after guard = guard.asked [.support, .rules]) ∧
    ((store.supports repo).1 ≠ .ok true →
      (checkActor actor repo path).after guard = guard.asked [.support]) := by
  have huser : actor.user ≠ 0 := by simpa [Actor.isAuthenticated, hinternal] using hactor
  rw [Check.after, checkActor_run_of_internal_eq_false guard hinternal, check_run]
  constructor
  · intro h
    simp [enquiries, henforced, huser, hstore, h]
  · intro h
    simp only [enquiries, henforced, huser, hstore]
    split
    · next hsome => simp at hsome
    · rfl

theorem answer_checkActor_mirrored {actor : Actor} {store : Store} {probe : Probe}
    (hstore : guard.store = some store) (hmirrors : probe.Mirrors store actor.user repo)
    (path : String) :
    (checkActor actor repo path).answer { guard with store := some (.probe probe) } =
      (checkActor actor repo path).answer guard := by
  simp only [Check.answer, checkActor_run, check_run, standingOf_mirrored hstore hmirrors]
  split <;> rfl

/-- A path is read on the grounds given and on no other. The store is asked nothing while nothing is
    enforced, for the system, for nobody and where there is no store; otherwise it is asked once for
    support, and once for rules just where it answers that there are any. A ledger does not count what
    it is asked: that is shown by a probe in its place, with which the answer stays the same. For an
    actor other than the system the check of its user comes to the same. -/
theorem checkActor_provenance (guard : Guard) (actor : Actor) (repo : RepoName) (path : String) :
    ((checkActor actor repo path).answer guard = .ok .read ↔ guard.Shows actor repo path) ∧
    (guard.enforced = false ∨ actor.internal = true ∨ actor.isAuthenticated = false ∨
        guard.store = none →
      (checkActor actor repo path).after guard = guard) ∧
    (∀ store, guard.enforced = true → actor.internal = false → actor.isAuthenticated = true →
        guard.store = some store →
      ((store.supports repo).1 = .ok true →
        (checkActor actor repo path).after guard = guard.asked [.support, .rules]) ∧
      ((store.supports repo).1 ≠ .ok true →
        (checkActor actor repo path).after guard = guard.asked [.support])) ∧
    (∀ store, guard.store = some store →
      (∃ probe : Probe, probe.Mirrors store actor.user repo) ∧
      ∀ probe : Probe, probe.Mirrors store actor.user repo →
        (checkActor actor repo path).answer { guard with store := some (.probe probe) } =
          (checkActor actor repo path).answer guard) ∧
    (actor.internal = false →
      (check actor.user repo path).run.run guard = (checkActor actor repo path).run.run guard) := by
  refine ⟨answer_checkActor_eq_read_iff guard actor repo path,
    fun h => after_checkActor_of_settled h repo path,
    fun store henforced hinternal hactor hstore =>
      after_checkActor_of_store henforced hinternal hactor hstore repo path,
    fun store hstore => ⟨Probe.exists_mirrors store actor.user repo,
      fun probe hmirrors => answer_checkActor_mirrored hstore hmirrors path⟩,
    fun hinternal => (checkActor_run_of_internal_eq_false guard hinternal repo path).symm⟩

end PathGuard.Guard
