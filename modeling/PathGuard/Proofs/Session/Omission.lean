import PathGuard.Proofs.Guard.Readable
import PathGuard.Proofs.Session.Run

/-!
# Steps that leave no trace

Steps that only ask, and steps that fail, leave a session as it was, but for the count of enquiries that
a probe keeps. No answer but that count, and no switch, depends on how often a store has been asked. So
such steps may be left out of a run, any of them, and what remains is answered as before.

## Main definitions

- `Omits`: a list from which some elements are left out
- `Session.unasked`: a session whose store has not been asked anything
- `Step.isQuery`, `Answer.isFault`: steps that only ask, and answers of steps that fail
- `Session.transcript`: the steps of a run with what came of them

## Main results

- `Session.step_unasked`: steps do not depend on what the store has been asked
- `Session.unasked_step_of_traceless`: what leaves no trace
- `Session.run_of_omits`: what remains of a run is answered as before
-/

namespace PathGuard

/-- Some elements of the first list, all with a property, are left out of the second. -/
inductive Omits {α : Type} (p : α → Prop) : List α → List α → Prop where
  | nil : Omits p [] []
  | keep (a : α) {l kept : List α} (h : Omits p l kept) : Omits p (a :: l) (a :: kept)
  | drop {a : α} (ha : p a) {l kept : List α} (h : Omits p l kept) : Omits p (a :: l) kept

namespace Guard

theorem unasked_unasked (guard : Guard) : guard.unasked.unasked = guard.unasked := by
  obtain ⟨enforced, _ | l | p⟩ := guard <;> rfl

/-- A check whose answer does not depend on how often the store has been asked, and that does no more
    than ask it. -/
structure Check.OnlyAsks {α : Type} (c : Check α) : Prop where
  answer (guard : Guard) : c.answer guard.unasked = c.answer guard
  after (guard : Guard) : (c.after guard).unasked = guard.unasked

theorem check_onlyAsks (user : UserId) (repo : RepoName) (path : String) :
    (check user repo path).OnlyAsks := by
  constructor
  · intro guard
    rw [answer_check, answer_check, standingOf_unasked]
  · intro guard
    rw [after_check, unasked_asked]

theorem checkActor_onlyAsks (actor : Actor) (repo : RepoName) (path : String) :
    (checkActor actor repo path).OnlyAsks := by
  constructor
  · intro guard
    rw [answer_checkActor, answer_checkActor, standingFor_unasked]
  · intro guard
    rw [after_checkActor, unasked_asked]

theorem readable_onlyAsks (actor : Actor) (repo : RepoName) (paths : List String) :
    (readable actor repo paths).OnlyAsks := by
  constructor
  · intro guard
    cases h : guard.standingFor actor repo with
    | ok standing =>
      have h' := (standingFor_unasked guard actor repo).trans h
      rw [Check.answer, Check.answer, readable_run_of_ok h, readable_run_of_ok h']
    | error fault =>
      have h' := (standingFor_unasked guard actor repo).trans h
      cases paths with
      | nil => rfl
      | cons path paths =>
        rw [Check.answer, Check.answer, readable_run_of_error h, readable_run_of_error h']
  · intro guard
    obtain ⟨es, hafter⟩ := exists_after_readable guard actor repo paths
    rw [hafter, unasked_asked]

end Guard

namespace Session

/-- The session as it is before any enquiry. -/
def unasked (s : Session) : Session :=
  { s with guard := s.guard.unasked }

/-- An answer without the count of enquiries. -/
def Answer.unasked : Answer → Answer
  | .calls _ _ => .calls 0 0
  | a => a

/-- Whether a step only asks. -/
def Step.isQuery : Step → Bool
  | .enforced | .check _ _ _ | .checkActor _ _ _ | .readable _ _ _ | .rulesOf _ | .supports _
  | .calls | .current => true
  | _ => false

/-- Whether an answer is the one of a step that failed. -/
def Answer.isFault : Answer → Bool
  | .checkFault _ | .loadFault _ | .notApplicable => true
  | _ => false

variable (s : Session)

theorem unasked_unasked : s.unasked.unasked = s.unasked := by
  simp [unasked, Guard.unasked_unasked]

/-! ### Steps do not depend on what the store has been asked -/

theorem onBoard_withStore {act act' : Board → Answer × Session} {store : Option Store}
    (h : ∀ b, act' b = ((act b).1, (act b).2.withStore store)) :
    (s.withStore store).onBoard act' = ((s.onBoard act).1, (s.onBoard act).2.withStore store) := by
  have hboard : (s.withStore store).board = s.board := rfl
  unfold onBoard
  rw [hboard]
  cases s.board with
  | none => rfl
  | some b =>
    cases hopen : b.isOpen with
    | false => simp [hopen]
    | true => simpa [hopen] using h b

theorem postResult_withStore (store : Option Store) (b : Board) (result : Except LoadFault Settings) :
    (s.withStore store).postResult b result =
      ((s.postResult b result).1, (s.postResult b result).2.withStore store) := by
  cases result <;> rfl

theorem receive_withStore (store : Option Store) (index : Nat) :
    (s.withStore store).receive index =
      ((s.receive index).1, (s.receive index).2.withStore store) := by
  have hboard : (s.withStore store).board = s.board := rfl
  unfold receive
  rw [hboard]
  cases s.board with
  | none => rfl
  | some b => cases hreceive : b.receive? index <;> simp [hreceive]; rfl

theorem letFollowers_withStore (store : Option Store) (act : Board → Option Bool × Board) :
    (s.withStore store).letFollowers act =
      ((s.letFollowers act).1, (s.letFollowers act).2.withStore store) := by
  have hboard : (s.withStore store).board = s.board := rfl
  unfold letFollowers
  rw [hboard]
  cases s.board with
  | none => rfl
  | some b => rcases hact : act b with ⟨_ | value, b'⟩ <;> simp [hact, applyFollowers] <;> rfl

/-- A step that is not about the store does not read it, and leaves it as it was. -/
theorem step_withStore {t : Step} (ht : t.isAtStore = false) (store : Option Store) :
    (s.withStore store).step t = ((s.step t).1, (s.step t).2.withStore store) := by
  cases t with
  | current => exact onBoard_withStore s fun b => rfl
  | publish text order => exact onBoard_withStore s fun b => postResult_withStore s store b _
  | reload orders => exact onBoard_withStore s fun b => postResult_withStore s store b _
  | subscribe => exact onBoard_withStore s fun b => rfl
  | receive index => exact receive_withStore s store index
  | follow => exact onBoard_withStore s fun b => rfl
  | settle => exact letFollowers_withStore s store _
  | close => exact letFollowers_withStore s store _
  | enforced => rfl
  | setEnforced value => rfl
  | writeFile path bytes => rfl
  | makeDirectory path => rfl
  | removePath path => rfl
  | setVariable name value => cases value <;> rfl
  | _ => cases ht

/-- A step that is not about the store leaves it as it was. -/
theorem store_step_of_isAtStore_eq_false {t : Step} (ht : t.isAtStore = false) :
    (s.step t).2.guard.store = s.guard.store :=
  congrArg (fun r => r.2.guard.store) (step_withStore s ht s.guard.store)

/-- The answers are the same but for the count of enquiries, and so are the sessions. -/
def Agree (x y : Answer × Session) : Prop :=
  x.1.unasked = y.1.unasked ∧ x.2.unasked = y.2.unasked

theorem runCheck_unasked {α : Type} {check : Guard.Check α} (h : check.OnlyAsks)
    (answer : α → Answer) : Agree (s.unasked.runCheck check answer) (s.runCheck check answer) := by
  constructor
  · have hanswer : (check.run.run s.unasked.guard).1 = (check.run.run s.guard).1 := h.answer s.guard
    unfold runCheck
    rcases hrun : check.run.run s.unasked.guard with ⟨result, next⟩
    rw [hrun] at hanswer
    obtain rfl : result = (check.run.run s.guard).1 := hanswer
    rfl
  · change ({ s with guard := (check.after s.guard.unasked).unasked } : Session) =
      { s with guard := (check.after s.guard).unasked }
    rw [h.after, h.after, Guard.unasked_unasked]

theorem putRules_unasked (user : UserId) (repo : RepoName) (rules : PathRules) :
    Agree (s.unasked.putRules user repo rules) (s.putRules user repo rules) := by
  obtain ⟨⟨enforced, _ | l | p⟩, board, files, environment⟩ := s <;> exact ⟨rfl, rfl⟩

theorem changeLedger_unasked (change : Ledger → Ledger) :
    Agree (s.unasked.changeLedger change) (s.changeLedger change) := by
  obtain ⟨⟨enforced, _ | l | p⟩, board, files, environment⟩ := s <;> exact ⟨rfl, rfl⟩

theorem askLedger_unasked (answer : Ledger → Answer) :
    Agree (s.unasked.askLedger answer) (s.askLedger answer) := by
  obtain ⟨⟨enforced, _ | l | p⟩, board, files, environment⟩ := s <;> exact ⟨rfl, rfl⟩

theorem changeProbe_unasked {change : Probe → Probe}
    (h : ∀ p : Probe, (change p.unasked).unasked = (change p).unasked) :
    Agree (s.unasked.changeProbe change) (s.changeProbe change) := by
  obtain ⟨⟨enforced, _ | l | p⟩, board, files, environment⟩ := s
  · exact ⟨rfl, rfl⟩
  · exact ⟨rfl, rfl⟩
  · refine ⟨rfl, ?_⟩
    simp [changeProbe, unasked, setStore, Guard.unasked, Store.unasked, h]

theorem askProbe_unasked {answer : Probe → Answer}
    (h : ∀ p : Probe, (answer p.unasked).unasked = (answer p).unasked) :
    Agree (s.unasked.askProbe answer) (s.askProbe answer) := by
  obtain ⟨⟨enforced, _ | l | p⟩, board, files, environment⟩ := s
  · exact ⟨rfl, rfl⟩
  · exact ⟨rfl, rfl⟩
  · exact ⟨h p, rfl⟩

/-- What a step answers, and what it leaves, does not depend on how often the store has been asked. -/
theorem step_unasked (t : Step) : Agree (s.unasked.step t) (s.step t) := by
  -- a step apart from the store does not see that it has been replaced; only the others need a look
  cases hstore : t.isAtStore with
  | false =>
    have hwith : s.unasked = s.withStore (s.guard.store.map (·.unasked)) := rfl
    rw [hwith, step_withStore s hstore, ← store_step_of_isAtStore_eq_false s hstore]
    exact ⟨rfl, unasked_unasked _⟩
  | true =>
    cases t with
    | check user repo path => exact runCheck_unasked s (Guard.check_onlyAsks user repo path) _
    | checkActor actor repo path =>
      exact runCheck_unasked s (Guard.checkActor_onlyAsks actor repo path) _
    | readable actor repo paths =>
      exact runCheck_unasked s (Guard.readable_onlyAsks actor repo paths) _
    | putRules user repo rules => exact putRules_unasked s user repo rules
    | removeUser user => exact changeLedger_unasked s _
    | setSupported repo value => exact changeLedger_unasked s _
    | rulesOf user => exact askLedger_unasked s _
    | supports repo => exact askLedger_unasked s _
    | markUnsupported repo => exact changeProbe_unasked s fun _ => rfl
    | failSupport fault => exact changeProbe_unasked s fun _ => rfl
    | failRules fault => exact changeProbe_unasked s fun _ => rfl
    | calls => exact askProbe_unasked s fun _ => rfl
    | _ => cases hstore

/-- Sessions that differ in nothing but in how often their stores have been asked take a step alike. -/
theorem step_agree {s s' : Session} (h : s'.unasked = s.unasked) (t : Step) :
    Agree (s'.step t) (s.step t) := by
  obtain ⟨hanswer, hnext⟩ := step_unasked s t
  obtain ⟨hanswer', hnext'⟩ := step_unasked s' t
  rw [h] at hanswer' hnext'
  exact ⟨hanswer'.symm.trans hanswer, hnext'.symm.trans hnext⟩

/-! ### Steps that leave the session as it was -/

theorem unasked_runCheck {α : Type} {check : Guard.Check α} (h : check.OnlyAsks)
    (answer : α → Answer) : (s.runCheck check answer).2.unasked = s.unasked := by
  change ({ s with guard := (check.after s.guard).unasked } : Session) = _
  rw [h.after]
  rfl

theorem unasked_step_of_isQuery {t : Step} (ht : t.isQuery = true) :
    (s.step t).2.unasked = s.unasked := by
  cases t with
  | enforced => rfl
  | check user repo path => exact unasked_runCheck s (Guard.check_onlyAsks user repo path) _
  | checkActor actor repo path =>
    exact unasked_runCheck s (Guard.checkActor_onlyAsks actor repo path) _
  | readable actor repo paths =>
    exact unasked_runCheck s (Guard.readable_onlyAsks actor repo paths) _
  | rulesOf user => exact congrArg unasked (askLedger_snd s _)
  | supports repo => exact congrArg unasked (askLedger_snd s _)
  | calls => exact congrArg unasked (askProbe_snd s _)
  | current =>
    exact onBoard_cases s (P := fun r => r.2.unasked = s.unasked) rfl fun _ _ _ => rfl
  | _ => cases ht

/-- What comes of something that leaves the session as it was if it fails. -/
def StaysOnFault (x : Answer × Session) : Prop :=
  x.1.isFault = true → x.2 = s

theorem staysOnFault_onBoard {act : Board → Answer × Session} (h : ∀ b, s.StaysOnFault (act b)) :
    s.StaysOnFault (s.onBoard act) :=
  onBoard_cases s (fun _ => rfl) fun b _ _ => h b

theorem staysOnFault_postResult (b : Board) (result : Except LoadFault Settings) :
    s.StaysOnFault (s.postResult b result) := by
  cases result with
  | ok settings => exact fun h => by cases h
  | error fault => exact fun _ => rfl

theorem staysOnFault_changeLedger (change : Ledger → Ledger) :
    s.StaysOnFault (s.changeLedger change) := by
  unfold changeLedger
  split
  · exact fun h => by cases h
  · exact fun _ => rfl

theorem staysOnFault_changeProbe (change : Probe → Probe) :
    s.StaysOnFault (s.changeProbe change) := by
  unfold changeProbe
  split
  · exact fun h => by cases h
  · exact fun _ => rfl

theorem staysOnFault_putRules (user : UserId) (repo : RepoName) (rules : PathRules) :
    s.StaysOnFault (s.putRules user repo rules) := by
  unfold putRules
  split
  · exact fun h => by cases h
  · exact fun h => by cases h
  · exact fun _ => rfl

theorem staysOnFault_receive (index : Nat) : s.StaysOnFault (s.receive index) := by
  unfold receive
  cases s.board with
  | none => exact fun _ => rfl
  | some b =>
    dsimp only
    cases b.receive? index with
    | none => exact fun _ => rfl
    | some seen => exact fun h => by cases h

theorem answer_letFollowers (act : Board → Option Bool × Board) :
    (s.letFollowers act).1 = .done := by
  unfold letFollowers
  cases s.board <;> rfl

/-- A step that fails leaves the session as it was, unless it is one that only asks. -/
theorem step_of_isFault {t : Step} (ht : t.isQuery = false) : s.StaysOnFault (s.step t) := by
  cases t with
  | putRules user repo rules => exact staysOnFault_putRules s user repo rules
  | removeUser user => exact staysOnFault_changeLedger s _
  | setSupported repo value => exact staysOnFault_changeLedger s _
  | markUnsupported repo => exact staysOnFault_changeProbe s _
  | failSupport fault => exact staysOnFault_changeProbe s _
  | failRules fault => exact staysOnFault_changeProbe s _
  | publish text order => exact staysOnFault_onBoard s fun b => staysOnFault_postResult s b _
  | reload orders => exact staysOnFault_onBoard s fun b => staysOnFault_postResult s b _
  | subscribe => exact staysOnFault_onBoard s fun b h => by cases h
  | receive index => exact staysOnFault_receive s index
  | follow => exact staysOnFault_onBoard s fun b h => by cases h
  | settle =>
    intro h
    rw [step, answer_letFollowers] at h
    cases h
  | close =>
    intro h
    rw [step, answer_letFollowers] at h
    cases h
  | setEnforced value => exact fun h => by cases h
  | writeFile path bytes => exact fun h => by cases h
  | makeDirectory path => exact fun h => by cases h
  | removePath path => exact fun h => by cases h
  | setVariable name value => cases value <;> exact fun h => by cases h
  | _ => cases ht

/-- The step only asked, or it failed. -/
def Traceless (e : Step × Answer × Bool) : Prop :=
  e.1.isQuery = true ∨ e.2.1.isFault = true

theorem unasked_step_of_traceless {t : Step} {switch : Bool}
    (h : Traceless (t, (s.step t).1, switch)) : (s.step t).2.unasked = s.unasked := by
  cases ht : t.isQuery with
  | true => exact unasked_step_of_isQuery s ht
  | false =>
    have hfault : (s.step t).1.isFault = true := h.resolve_left (by simp [ht])
    rw [step_of_isFault s ht hfault]

/-! ### Runs from which steps are left out -/

/-- The steps of a run, each with its answer and the switch after it. -/
def transcript (steps : List Step) : List (Step × Answer × Bool) :=
  steps.zip (s.run steps)

theorem transcript_cons (t : Step) (steps : List Step) :
    s.transcript (t :: steps) =
      (t, (s.step t).1, (s.step t).2.guard.enforced) :: (s.step t).2.transcript steps :=
  rfl

/-- What is left of a run is taken alike by a session that differs in nothing but in how often its
    store has been asked. -/
theorem run_of_omits_transcript {s s' : Session} (hs : s'.unasked = s.unasked) {steps : List Step}
    {kept : List (Step × Answer × Bool)} (h : Omits Traceless (s.transcript steps) kept) :
    (s'.run (kept.map Prod.fst)).map (Prod.map Answer.unasked id) =
      (kept.map Prod.snd).map (Prod.map Answer.unasked id) := by
  -- one session takes all steps, the other those that are kept; the omissions say which to take
  induction steps generalizing s s' kept with
  | nil =>
    cases h
    rfl
  | cons t steps ih =>
    rw [transcript_cons] at h
    cases h with
    | keep _ hlater =>
      obtain ⟨hanswer, hnext⟩ := step_agree hs t
      have hswitch : (s'.step t).2.guard.enforced = (s.step t).2.guard.enforced :=
        congrArg (fun s => s.guard.enforced) hnext
      simp only [List.map_cons, run, ih hnext hlater, Prod.map, hanswer, hswitch, id]
    | drop hleft hlater =>
      exact ih (hs.trans (unasked_step_of_traceless s hleft).symm) hlater

/-- From the steps of a run any that only asked or failed may be left out: what remains is answered as
    before, with the switch as it was after each step, but for the counts of enquiries. -/
theorem run_of_omits {steps : List Step} {kept : List (Step × Answer × Bool)}
    (h : Omits Traceless (s.transcript steps) kept) :
    (s.run (kept.map Prod.fst)).map (Prod.map Answer.unasked id) =
      (kept.map Prod.snd).map (Prod.map Answer.unasked id) :=
  run_of_omits_transcript rfl h

theorem run_of_omits_probe :
    let s : Session := ⟨⟨false, some (.probe (.fresh [] none none))⟩,
      some (.fresh ⟨true, "info", .pretty⟩ (some "gone.toml")), .empty, .empty⟩
    let put : Step := .putRules 5 "r" ⟨["r/**"], []⟩
    let check : Step := .check 5 "r" "a"
    let kept : List (Step × Answer × Bool) :=
      [(.follow, .done, true), (put, .done, true), (check, .permission .read, true),
        (.calls, .calls 2 2, true)]
    Omits Traceless (s.transcript [.follow, check, put, .reload, .removeUser 5, check, .calls]) kept ∧
      (s.run (kept.map Prod.fst)).map (Prod.map Answer.unasked id) =
        (kept.map Prod.snd).map (Prod.map Answer.unasked id) := by
  intro s put check kept
  have hanswers : s.run [.follow, check, put, .reload, .removeUser 5, check, .calls] =
      [(.done, true), (.permission .none, true), (.done, true),
        (.loadFault (.notFound .settings "gone.toml"), true), (.notApplicable, true),
        (.permission .read, true), (.calls 2 2, true)] := rfl
  have homits : Omits Traceless
      (s.transcript [.follow, check, put, .reload, .removeUser 5, check, .calls]) kept := by
    rw [transcript, hanswers]
    exact .keep _ (.drop (.inl rfl) (.keep _ (.drop (.inr rfl) (.drop (.inr rfl)
      (.keep _ (.keep _ .nil))))))
  exact ⟨homits, run_of_omits s homits⟩

end Session

end PathGuard
