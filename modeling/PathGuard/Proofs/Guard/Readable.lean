import Mathlib.Data.List.Basic
import PathGuard.Proofs.Guard.Ledger

/-!
# Checks of several paths

Whether a check for an actor fails, and how, is settled before any path is looked at: by how the actor
stands to the repository. Only then does the path decide. So checking several paths fails for all of
them alike, at the first, or shows just the paths whose own checks allow reading.

How often a store has been asked does not matter to any of this, which is said by comparing a guard
with the one that has not been asked anything.

## Main definitions

- `Guard.unasked`: a guard whose store has not been asked anything
- `Guard.standingFor`, `Guard.enquiriesFor`: the standing of an actor, and what is asked to find it out
- `Guard.GoesThrough`: a check of several paths, one after the other

## Main results

- `Guard.answer_checkActor`, `Guard.after_checkActor`: a check is decided by the standing
- `Guard.GoesThrough.run_of_ok`, `Guard.GoesThrough.run_of_error`: checks of several paths
- `Guard.readable_all_or_none`: they succeed or fail as the checks of the single paths do
-/

namespace PathGuard

/-- The probe as it is before any enquiry. -/
def Probe.unasked (p : Probe) : Probe :=
  { p with supportCalls := 0, rulesCalls := 0 }

/-- The store as it is before any enquiry. -/
def Store.unasked : Store → Store
  | .ledger l => .ledger l
  | .probe p => .probe p.unasked

theorem Store.supports_unasked_fst (store : Store) (repo : RepoName) :
    (store.unasked.supports repo).1 = (store.supports repo).1 := by
  cases store <;> rfl

theorem Store.rulesOf_unasked_fst (store : Store) (user : UserId) :
    (store.unasked.rulesOf user).1 = (store.rulesOf user).1 := by
  cases store <;> rfl

theorem Store.unasked_asked (store : Store) (es : List Enquiry) :
    (store.asked es).unasked = store.unasked := by
  cases store <;> rfl

namespace Guard

/-- The guard as it is before any enquiry. -/
def unasked (guard : Guard) : Guard :=
  { guard with store := guard.store.map (·.unasked) }

section Unasked

variable (guard : Guard) (user : UserId) (repo : RepoName)

theorem unasked_asked (es : List Enquiry) : (guard.asked es).unasked = guard.unasked := by
  obtain ⟨enforced, _ | store⟩ := guard
  · rfl
  · simp [asked, unasked, Store.unasked_asked]

theorem standingOf_unasked : guard.unasked.standingOf user repo = guard.standingOf user repo := by
  obtain ⟨enforced, _ | store⟩ := guard
  · rfl
  · simp [standingOf, unasked, Store.supports_unasked_fst, Store.rulesOf_unasked_fst]

theorem enquiries_unasked : guard.unasked.enquiries user repo = guard.enquiries user repo := by
  obtain ⟨enforced, _ | store⟩ := guard
  · rfl
  · simp [enquiries, unasked, Store.supports_unasked_fst]

end Unasked

section Standing

variable (guard : Guard) (actor : Actor) (repo : RepoName)

/-- The standing of an actor: nothing restricts the system, and nobody while nothing is enforced. -/
def standingFor : Except CheckFault Standing :=
  if guard.enforced = false ∨ actor.internal = true then .ok .unrestricted
  else guard.standingOf actor.user repo

/-- The enquiries that the standing of an actor takes. -/
def enquiriesFor : List Enquiry :=
  if guard.enforced = false ∨ actor.internal = true then []
  else guard.enquiries actor.user repo

theorem answer_checkActor (path : String) :
    (checkActor actor repo path).answer guard =
      (guard.standingFor actor repo).map (·.permission repo path) := by
  rw [Check.answer, checkActor_run, standingFor]
  split
  · rfl
  · rw [check_run]

theorem after_checkActor (path : String) :
    (checkActor actor repo path).after guard = guard.asked (guard.enquiriesFor actor repo) := by
  rw [Check.after, checkActor_run, enquiriesFor]
  split
  · rw [asked_nil]
  · rw [check_run]

theorem standingFor_unasked : guard.unasked.standingFor actor repo = guard.standingFor actor repo := by
  rw [standingFor, standingOf_unasked]
  rfl

theorem enquiriesFor_unasked :
    guard.unasked.enquiriesFor actor repo = guard.enquiriesFor actor repo := by
  rw [enquiriesFor, enquiries_unasked]
  rfl

theorem standingFor_asked (es : List Enquiry) :
    (guard.asked es).standingFor actor repo = guard.standingFor actor repo := by
  rw [← standingFor_unasked, unasked_asked, standingFor_unasked]

theorem enquiriesFor_asked (es : List Enquiry) :
    (guard.asked es).enquiriesFor actor repo = guard.enquiriesFor actor repo := by
  rw [← enquiriesFor_unasked, unasked_asked, enquiriesFor_unasked]

end Standing

variable {guard : Guard} {actor : Actor} {repo : RepoName}

theorem answer_checkActor_of_ok {standing : Standing} (h : guard.standingFor actor repo = .ok standing)
    (path : String) :
    (checkActor actor repo path).answer guard = .ok (standing.permission repo path) := by
  rw [answer_checkActor, h]
  rfl

theorem answer_checkActor_of_error {fault : CheckFault}
    (h : guard.standingFor actor repo = .error fault) (path : String) :
    (checkActor actor repo path).answer guard = .error fault := by
  rw [answer_checkActor, h]
  rfl

/-! ### Going through paths -/

/-- A check of several paths that checks one after the other, and adds what it found of a path to what
    it finds of those after it. -/
structure GoesThrough {β : Type} (actor : Actor) (repo : RepoName) (c : List String → Check β)
    (add : String → Permission → β → β) (start : β) : Prop where
  nil : c [] = return start
  cons (path : String) (paths : List String) : c (path :: paths) = do
    let permission ← checkActor actor repo path
    return add path permission (← c paths)

namespace GoesThrough

variable {β : Type} {c : List String → Check β} {add : String → Permission → β → β} {start : β}

/-- With a standing, each path is found to be as its own check says, and the store is asked for each
    anew. -/
theorem run_of_ok (hc : GoesThrough actor repo c add start) {standing : Standing}
    (h : guard.standingFor actor repo = .ok standing) (paths : List String) :
    (c paths).run.run guard =
      (.ok (paths.foldr (fun path => add path (standing.permission repo path)) start),
        guard.asked (paths.flatMap fun _ => guard.enquiriesFor actor repo)) := by
  induction paths generalizing guard with
  | nil => rw [hc.nil, List.flatMap_nil, asked_nil]; rfl
  | cons path paths ih =>
    have hfirst : (checkActor actor repo path).run.run guard =
        (.ok (standing.permission repo path), guard.asked (guard.enquiriesFor actor repo)) :=
      Prod.ext (answer_checkActor_of_ok h path) (after_checkActor guard actor repo path)
    -- the enquiries of the first path leave the standing, and what the later ones ask, as they were
    have hlater := ih ((standingFor_asked guard actor repo (guard.enquiriesFor actor repo)).trans h)
    rw [enquiriesFor_asked, asked_asked] at hlater
    rw [hc.cons, Check.run_bind, hfirst]
    simp only [Check.run_bind, hlater, List.flatMap_cons, List.foldr_cons]
    rfl

/-- Without a standing the first path is a fault already. -/
theorem run_of_error (hc : GoesThrough actor repo c add start) {fault : CheckFault}
    (h : guard.standingFor actor repo = .error fault) (path : String) (paths : List String) :
    (c (path :: paths)).run.run guard =
      (.error fault, guard.asked (guard.enquiriesFor actor repo)) := by
  have hfirst : (checkActor actor repo path).run.run guard =
      (.error fault, guard.asked (guard.enquiriesFor actor repo)) :=
    Prod.ext (answer_checkActor_of_error h path) (after_checkActor guard actor repo path)
  rw [hc.cons, Check.run_bind, hfirst]

end GoesThrough

theorem readable_goesThrough (actor : Actor) (repo : RepoName) :
    GoesThrough actor repo (readable actor repo)
      (fun path permission later => if permission.canRead then path :: later else later) [] :=
  ⟨rfl, fun _ _ => rfl⟩

/-- An actor with a standing is shown the paths that it allows to read. -/
theorem readable_run_of_ok {standing : Standing} (h : guard.standingFor actor repo = .ok standing)
    (paths : List String) :
    (readable actor repo paths).run.run guard =
      (.ok (paths.filter fun path => (standing.permission repo path).canRead),
        guard.asked (paths.flatMap fun _ => guard.enquiriesFor actor repo)) := by
  rw [(readable_goesThrough actor repo).run_of_ok h, List.filter_eq_foldr]
  simp only [cond_eq_ite]

/-- An actor whose standing cannot be found out fails at the first path. -/
theorem readable_run_of_error {fault : CheckFault} (h : guard.standingFor actor repo = .error fault)
    (path : String) (paths : List String) :
    (readable actor repo (path :: paths)).run.run guard =
      (.error fault, guard.asked (guard.enquiriesFor actor repo)) :=
  (readable_goesThrough actor repo).run_of_error h path paths

theorem answer_readable_of_ok {standing : Standing} (h : guard.standingFor actor repo = .ok standing)
    (paths : List String) :
    (readable actor repo paths).answer guard =
      .ok (paths.filter fun path => (checkActor actor repo path).answer guard = .ok .read) := by
  rw [Check.answer, readable_run_of_ok h]
  simp [answer_checkActor_of_ok h, Permission.canRead, beq_eq_decide]

theorem after_readable_of_ok {standing : Standing} (h : guard.standingFor actor repo = .ok standing)
    (paths : List String) :
    (readable actor repo paths).after guard =
      guard.asked (paths.flatMap fun _ => guard.enquiriesFor actor repo) := by
  rw [Check.after, readable_run_of_ok h]

theorem answer_readable_of_error {fault : CheckFault}
    (h : guard.standingFor actor repo = .error fault) (path : String) (paths : List String) :
    (readable actor repo (path :: paths)).answer guard = .error fault := by
  rw [Check.answer, readable_run_of_error h]

theorem after_readable_of_error {fault : CheckFault}
    (h : guard.standingFor actor repo = .error fault) (path : String) (paths : List String) :
    (readable actor repo (path :: paths)).after guard = (checkActor actor repo path).after guard := by
  rw [Check.after, readable_run_of_error h, after_checkActor]

/-- Whether checks for an actor fail, and how, does not depend on the paths. So checks of several paths
    succeed just when there is none or the check of any of them succeeds, and then show those whose own
    check allows reading, in order; otherwise they fail as each of them does. The store is asked what
    the single checks ask, or what the first one asks if they fail. -/
theorem readable_all_or_none (guard : Guard) (actor : Actor) (repo : RepoName) :
    ((∀ path, ∃ permission, (checkActor actor repo path).answer guard = .ok permission) ∨
      ∃ fault, ∀ path, (checkActor actor repo path).answer guard = .error fault) ∧
    ∃ es : String → List Enquiry,
      (∀ path, (checkActor actor repo path).after guard = guard.asked (es path)) ∧
      ∀ paths : List String,
        ((∃ shown, (readable actor repo paths).answer guard = .ok shown) ↔
          paths = [] ∨
            ∃ path ∈ paths, ∃ permission, (checkActor actor repo path).answer guard = .ok permission) ∧
        (∀ shown, (readable actor repo paths).answer guard = .ok shown →
          shown = paths.filter (fun path => (checkActor actor repo path).answer guard = .ok .read) ∧
          (readable actor repo paths).after guard = guard.asked (paths.flatMap es)) ∧
        ∀ fault, (readable actor repo paths).answer guard = .error fault →
          (∀ path, (checkActor actor repo path).answer guard = .error fault) ∧
          ∃ first later, paths = first :: later ∧
            (readable actor repo paths).after guard = (checkActor actor repo first).after guard := by
  cases h : guard.standingFor actor repo with
  | ok standing =>
    have hsingle := answer_checkActor_of_ok h
    refine ⟨.inl fun path => ⟨_, hsingle path⟩, fun _ => guard.enquiriesFor actor repo,
      after_checkActor guard actor repo, fun paths => ?_⟩
    have hanswer := answer_readable_of_ok h paths
    refine ⟨⟨fun _ => ?_, fun _ => ⟨_, hanswer⟩⟩,
      fun shown hshown => ⟨?_, after_readable_of_ok h paths⟩, fun fault hfault => ?_⟩
    · cases paths with
      | nil => exact .inl rfl
      | cons path paths => exact .inr ⟨path, List.mem_cons_self, _, hsingle path⟩
    · exact (Except.ok.inj (hanswer.symm.trans hshown)).symm
    · rw [hanswer] at hfault
      cases hfault
  | error fault =>
    have hsingle := answer_checkActor_of_error h
    refine ⟨.inr ⟨fault, hsingle⟩, fun _ => guard.enquiriesFor actor repo,
      after_checkActor guard actor repo, fun paths => ?_⟩
    -- without a path nothing is asked, so nothing fails
    cases paths with
    | nil =>
      have hanswer : (readable actor repo []).answer guard = .ok [] := rfl
      refine ⟨⟨fun _ => .inl rfl, fun _ => ⟨_, hanswer⟩⟩, fun shown hshown => ⟨?_, ?_⟩,
        fun fault hfault => ?_⟩
      · exact (Except.ok.inj (hanswer.symm.trans hshown)).symm
      · exact (asked_nil guard).symm
      · rw [hanswer] at hfault
        cases hfault
    | cons path paths =>
      have hanswer := answer_readable_of_error h path paths
      refine ⟨?_, fun shown hshown => ?_, fun fault' hfault => ⟨?_, path, paths, rfl, ?_⟩⟩
      · simp [hanswer, hsingle]
      · rw [hanswer] at hshown
        cases hshown
      · obtain rfl := Except.error.inj (hanswer.symm.trans hfault)
        exact hsingle
      · exact after_readable_of_error h path paths

end Guard

end PathGuard
