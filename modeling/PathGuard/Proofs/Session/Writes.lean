import PathGuard.Proofs.Session.Run
import PathGuard.Proofs.Store.Ledger

/-!
# What a session writes and what it reads

In a session over a ledger, what the ledger says of a user and a repository is what was last written
about them, by a step or else by the document that the ledger was opened with. A check is decided by
this and by the switch as it stands, so that nothing else that was written or checked before can
matter to it.

## Main definitions

- `Step.write`: what a step does to a ledger
- `Ledger.Remembers`: a ledger that says what was last written
- `StoreSource.document?`: the document that a ledger is opened with

## Main results

- `Session.exists_ledger_after`: the ledger of a session remembers the steps so far
- `Session.answers_after_writes`: what is read of it, and what checks answer
-/

namespace PathGuard

namespace Session

/-- What a step does to the ledger of a session. -/
def Step.write (l : Ledger) : Step → Ledger
  | .putRules user repo rules => l.put user repo rules
  | .removeUser user => l.removeUser user
  | .setSupported repo value => l.setSupported repo value
  | _ => l

/-- A step that writes about the rules of a user for a repository. -/
def Step.WritesRules (user : UserId) (repo : RepoName) (t : Step) : Prop :=
  t = .removeUser user ∨ ∃ rules, t = .putRules user repo rules

/-- A step that writes whether a repository has path rules. -/
def Step.WritesSupport (repo : RepoName) (t : Step) : Prop :=
  ∃ value, t = .setSupported repo value

/-- Whether a step writes about a user and a repository. -/
def Step.concerns (user : UserId) (repo : RepoName) : Step → Bool
  | .putRules user' repo' _ => user' == user && repo' == repo
  | .removeUser user' => user' == user
  | .setSupported repo' _ => repo' == repo
  | _ => false

section Writing

variable (l : Ledger) (t : Step) (user : UserId) (repo : RepoName)

theorem Step.rules?_write (rules : PathRules) :
    (t.write l).rules? user repo = some rules ↔
      t = .putRules user repo rules ∨
        ¬ t.WritesRules user repo ∧ l.rules? user repo = some rules := by
  cases t with
  | putRules user' repo' rules' =>
    rw [write, Ledger.rules?_put]
    by_cases h : user = user' ∧ repo = repo'
    · obtain ⟨rfl, rfl⟩ := h
      simp [WritesRules]
    · have hother : ¬ (user' = user ∧ repo' = repo) := fun h' => h ⟨h'.1.symm, h'.2.symm⟩
      rw [if_neg h]
      simp only [WritesRules, Step.putRules.injEq, reduceCtorEq, false_or]
      grind
  | removeUser user' =>
    rw [write, Ledger.rules?_removeUser]
    by_cases h : user = user'
    · simp [WritesRules, h]
    · simp [WritesRules, h, Ne.symm h]
  | _ => simp [write, WritesRules]

theorem Step.supports_write :
    (t.write l).supports repo = true ↔
      t = .setSupported repo true ∨ ¬ t.WritesSupport repo ∧ l.supports repo = true := by
  cases t with
  | setSupported repo' value =>
    rw [write, Ledger.supports_setSupported]
    by_cases h : repo = repo'
    · simp [WritesSupport, h]
    · simp [WritesSupport, h, Ne.symm h]
  | _ => simp [write, WritesSupport]

theorem Step.exists_rules?_write :
    (∃ rules, (t.write l).rules? user repo = some rules) ↔
      (∃ rules, t = .putRules user repo rules) ∨
        t ≠ .removeUser user ∧ ∃ rules, l.rules? user repo = some rules := by
  simp only [rules?_write, exists_or, exists_and_left, WritesRules, not_or]
  tauto

theorem Step.isDistinct_write (h : l.IsDistinct) : (t.write l).IsDistinct := by
  cases t with
  | putRules user repo rules => exact h.put user repo rules
  | removeUser user => exact h.removeUser user
  | setSupported repo value => exact h.setSupported repo value
  | _ => exact h

end Writing

/-- A step changes the ledger of a session by what it writes, and keeps it a ledger. -/
theorem store_step {s : Session} {l : Ledger} (hstore : s.guard.store = some (.ledger l)) (t : Step) :
    (s.step t).2.guard.store = some (.ledger (t.write l)) := by
  have hasked : ∀ es, (s.guard.asked es).store = some (.ledger l) := fun es => by
    rw [Guard.asked_of_ledger hstore, hstore]
  cases t with
  | check user repo path =>
    have hafter := Guard.after_check s.guard user repo path
    exact (congrArg Guard.store hafter).trans (hasked _)
  | checkActor actor repo path =>
    obtain ⟨es, hafter⟩ := Guard.exists_after_checkActor s.guard actor repo path
    exact (congrArg Guard.store hafter).trans (hasked es)
  | readable actor repo paths =>
    obtain ⟨es, hafter⟩ := Guard.exists_after_readable s.guard actor repo paths
    exact (congrArg Guard.store hafter).trans (hasked es)
  | putRules user repo rules => simp [step, putRules, hstore, setStore, Step.write]
  | removeUser user => simp [step, changeLedger, hstore, setStore, Step.write]
  | setSupported repo value => simp [step, changeLedger, hstore, setStore, Step.write]
  | rulesOf user => simp [step, askLedger, hstore, Step.write]
  | supports repo => simp [step, askLedger, hstore, Step.write]
  | markUnsupported repo => simp [step, changeProbe, hstore, Step.write]
  | failSupport fault => simp [step, changeProbe, hstore, Step.write]
  | failRules fault => simp [step, changeProbe, hstore, Step.write]
  | calls => simp [step, askProbe, hstore, Step.write]
  | current => exact (store_onBoard s fun _ => rfl).trans hstore
  | publish text order =>
    exact (store_onBoard s fun b => congrArg Guard.store (guard_postResult s b _)).trans hstore
  | reload orders =>
    exact (store_onBoard s fun b => congrArg Guard.store (guard_postResult s b _)).trans hstore
  | subscribe => exact (store_onBoard s fun _ => rfl).trans hstore
  | receive index => exact (congrArg Guard.store (guard_receive s index)).trans hstore
  | follow => exact (store_onBoard s fun _ => rfl).trans hstore
  | settle => exact (store_letFollowers s _).trans hstore
  | close => exact (store_letFollowers s _).trans hstore
  | setVariable name value => cases value <;> exact hstore
  | _ => exact hstore

end Session

open Session

/-- A ledger that says of each user and repository what was last written about them, by steps or else
    by a document. -/
structure Ledger.Remembers (l : Ledger) (d : RulesDocument) (steps : List Step) : Prop where
  isDistinct : l.IsDistinct
  rules : ∀ user repo rules, l.rules? user repo = some rules ↔
    Held (⟨user, repo, rules⟩ ∈ d.entries) (· = .putRules user repo rules)
      (¬ ·.WritesRules user repo) steps
  listed : ∀ user repo, (∃ rules, l.rules? user repo = some rules) ↔
    Held (∃ rules, ⟨user, repo, rules⟩ ∈ d.entries) (fun t => ∃ rules, t = .putRules user repo rules)
      (· ≠ .removeUser user) steps
  supported : ∀ repo, l.supports repo = true ↔
    Held (repo ∈ d.supported) (· = .setSupported repo true) (¬ ·.WritesSupport repo) steps

namespace Ledger.Remembers

variable {l l' : Ledger} {d : RulesDocument} {steps others : List Step} {user : UserId}
  {repo : RepoName}

theorem start (h : ofDocument d = .ok l) : l.Remembers d [] := by
  obtain ⟨hrules, hsupports, hdistinct⟩ := ofDocument_spec h
  constructor
  · exact hdistinct
  · intro user repo rules
    rw [held_nil, hrules]
  · intro user repo
    simp only [held_nil, hrules]
  · intro repo
    rw [held_nil, hsupports]

theorem step (h : l.Remembers d steps) (t : Step) : (t.write l).Remembers d (steps ++ [t]) := by
  constructor
  · exact t.isDistinct_write l h.isDistinct
  · intro user repo rules
    rw [held_concat, t.rules?_write, h.rules]
  · intro user repo
    rw [held_concat, t.exists_rules?_write, h.listed]
  · intro repo
    rw [held_concat, t.supports_write, h.supported]

/-- Steps that write about others do not matter to what a ledger says of a user and a repository. -/
theorem eq_of_concerns (h : l.Remembers d steps) (h' : l'.Remembers d others)
    (hsame : others.filter (·.concerns user repo) = steps.filter (·.concerns user repo)) :
    l'.rules? user repo = l.rules? user repo ∧ l'.supports repo = l.supports repo := by
  -- what is left out neither writes about the two nor ends what was written
  have hquiet : ∀ t : Step, t.concerns user repo = false →
      ¬ t.WritesRules user repo ∧ ¬ t.WritesSupport repo := by
    intro t ht
    constructor
    · rintro (rfl | ⟨rules, rfl⟩) <;> simp [Step.concerns] at ht
    · rintro ⟨value, rfl⟩
      simp [Step.concerns] at ht
  constructor
  · apply Option.ext
    intro rules
    have hleft : ∀ t : Step, t.concerns user repo = false →
        ¬ t = .putRules user repo rules ∧ ¬ t.WritesRules user repo :=
      fun t ht => ⟨fun h => (hquiet t ht).1 (.inr ⟨rules, h⟩), (hquiet t ht).1⟩
    rw [h.rules, h'.rules, ← held_filter hleft, hsame, held_filter hleft]
  · rw [Bool.eq_iff_iff, h.supported, h'.supported]
    have hleft : ∀ t : Step, t.concerns user repo = false →
        ¬ t = .setSupported repo true ∧ ¬ t.WritesSupport repo :=
      fun t ht => ⟨fun h => (hquiet t ht).2 ⟨true, h⟩, (hquiet t ht).2⟩
    rw [← held_filter hleft, hsame, held_filter hleft]

end Ledger.Remembers

/-! ### The document that a ledger is opened with -/

/-- The document that a text writes. -/
def RulesDocument.ofText? (text : String) : Option RulesDocument :=
  (Toml.parse? .leaving text).bind ofTable?

namespace Session.StoreSource

/-- Whether a source gives a ledger. -/
def IsLedger : StoreSource → Prop
  | .empty | .text _ | .file _ => True
  | .none | .probe _ => False

/-- The document that a source gives. The empty ledger is the one of the empty document. -/
def document? (s : Surroundings) : StoreSource → Option RulesDocument
  | .empty => some ⟨[], []⟩
  | .text document => RulesDocument.ofText? document
  | .file path =>
    (s.file? path).bind fun bytes => (Utf8.decodeStrict? bytes).bind RulesDocument.ofText?
  | .none | .probe _ => .none

theorem exists_ofText_eq_ok {text : String} {l : Ledger} (h : Ledger.ofText text = .ok l) :
    ∃ d, RulesDocument.ofText? text = some d ∧ Ledger.ofDocument d = .ok l := by
  unfold Ledger.ofText at h
  split at h
  · cases h
  · next table htable =>
    split at h
    · cases h
    · next d hd => exact ⟨d, by rw [RulesDocument.ofText?, htable, Option.bind_some, hd], h⟩

theorem exists_bytes_of_load_eq_ok {surroundings : Surroundings} {path : String} {l : Ledger}
    (h : Ledger.load surroundings path = .ok l) :
    ∃ bytes text, surroundings.look path = some (.file bytes) ∧
      Utf8.decodeStrict? bytes = some text ∧ Ledger.ofText text = .ok l := by
  unfold Ledger.load at h
  split at h
  · cases h
  · cases h
  · next bytes hlook =>
    split at h
    · cases h
    · next text htext => exact ⟨bytes, text, hlook, htext, h⟩

/-- A source that gives a ledger gives the one of its document. -/
theorem exists_document? {surroundings : Surroundings} {source : StoreSource}
    {store : Option Store} (hsource : source.IsLedger)
    (h : source.store surroundings = .ok store) :
    ∃ d l, source.document? surroundings = some d ∧ Ledger.ofDocument d = .ok l ∧
      store = some (.ledger l) := by
  cases source with
  | empty => exact ⟨_, _, rfl, rfl, (Except.ok.inj h).symm⟩
  | text document =>
    obtain ⟨l, hl, rfl⟩ := exists_of_map_eq_ok h
    obtain ⟨d, hd, hofDocument⟩ := exists_ofText_eq_ok hl
    exact ⟨d, l, hd, hofDocument, rfl⟩
  | file path =>
    obtain ⟨l, hl, rfl⟩ := exists_of_map_eq_ok h
    obtain ⟨bytes, text, hlook, htext, hofText⟩ := exists_bytes_of_load_eq_ok hl
    obtain ⟨d, hd, hofDocument⟩ := exists_ofText_eq_ok hofText
    refine ⟨d, l, ?_, hofDocument, rfl⟩
    simp [document?, Surroundings.file?, hlook, htext, hd]
  | none => exact hsource.elim
  | probe p => exact hsource.elim

end Session.StoreSource

namespace Session

variable {files : FileTree} {environment : Environment} {source : StoreSource} {enforced : Bool}
  {board : BoardSource} {s : Session}

/-- The ledger of a session remembers the document that it was opened with and all steps since. -/
theorem exists_ledger_after (hstart : start files environment source enforced board = .ok s)
    (hsource : source.IsLedger) :
    ∃ d, source.document? (.ofTree files environment) = some d ∧
      ∀ steps, ∃ l, (s.after steps).guard.store = some (.ledger l) ∧ l.Remembers d steps := by
  obtain ⟨store, hstore, hguard, -⟩ := start_eq_ok hstart
  obtain ⟨d, l, hd, hl, rfl⟩ := StoreSource.exists_document? hsource hstore
  refine ⟨d, hd, fun steps => ?_⟩
  induction steps using after_induction (s := s) with
  | start => exact ⟨l, by rw [hguard], .start hl⟩
  | step steps t ih =>
    obtain ⟨l, hl, hremembers⟩ := ih
    exact ⟨t.write l, store_step hl t, hremembers.step t⟩

/-- What a check answers. -/
def Answer.ofCheck : Except CheckFault Permission → Answer
  | .ok value => .permission value
  | .error fault => .checkFault fault

theorem step_check (s : Session) (user : UserId) (repo : RepoName) (path : String) :
    (s.step (.check user repo path)).1 = .ofCheck ((Guard.check user repo path).answer s.guard) := by
  rw [step, runCheck, Guard.Check.answer]
  rcases (Guard.check user repo path).run.run s.guard with ⟨fault | value, guard⟩ <;> rfl

theorem step_check_of_ledger {l : Ledger} (hstore : s.guard.store = some (.ledger l))
    (user : UserId) (repo : RepoName) (path : String) :
    (s.step (.check user repo path)).1 =
      .ofCheck (Guard.decision s.guard.enforced (l.supports repo) (l.rules? user repo) user repo
        path) := by
  rw [step_check, Guard.answer_check_of_ledger hstore]

/-- At every point of a session over a ledger, the rules of a user are those last written and not
    removed since, the repositories with path rules are those last set so, and a check is decided by
    these two answers and the switch. What is written about others, and what was checked before, does
    not matter to it. -/
theorem answers_after_writes (hstart : start files environment source enforced board = .ok s)
    (hsource : source.IsLedger) :
    ∃ d, source.document? (.ofTree files environment) = some d ∧
      ∀ (steps : List Step) (user : UserId) (repo : RepoName), ∃ found supported,
        ((s.after steps).step (.rulesOf user)).1 = .rules found ∧
        (found.map Prod.fst).Nodup ∧
        (repo ∈ found.map Prod.fst ↔
          Held (∃ rules, ⟨user, repo, rules⟩ ∈ d.entries)
            (fun t => ∃ rules, t = .putRules user repo rules) (· ≠ .removeUser user) steps) ∧
        (∀ rules, found.lookup repo = some rules ↔
          Held (⟨user, repo, rules⟩ ∈ d.entries) (· = .putRules user repo rules)
            (¬ ·.WritesRules user repo) steps) ∧
        ((s.after steps).step (.supports repo)).1 = .truth supported ∧
        (supported = true ↔
          Held (repo ∈ d.supported) (· = .setSupported repo true) (¬ ·.WritesSupport repo) steps) ∧
        (∀ path, ((s.after steps).step (.check user repo path)).1 =
          .ofCheck (Guard.decision (s.after steps).guard.enforced supported (found.lookup repo) user
            repo path)) ∧
        (∀ others, others.filter (·.concerns user repo) = steps.filter (·.concerns user repo) →
          (s.after others).guard.enforced = (s.after steps).guard.enforced → ∀ path,
          ((s.after others).step (.check user repo path)).1 =
            ((s.after steps).step (.check user repo path)).1) ∧
        ∀ t : Step, t.concerns user repo = false → t.maySwitch = false → ∀ path,
          ((s.after (steps ++ [t])).step (.check user repo path)).1 =
            ((s.after steps).step (.check user repo path)).1 := by
  obtain ⟨d, hd, hledger⟩ := exists_ledger_after hstart hsource
  refine ⟨d, hd, fun steps user repo => ?_⟩
  obtain ⟨l, hl, hremembers⟩ := hledger steps
  have hothers : ∀ others : List Step,
      others.filter (·.concerns user repo) = steps.filter (·.concerns user repo) →
      (s.after others).guard.enforced = (s.after steps).guard.enforced → ∀ path,
      ((s.after others).step (.check user repo path)).1 =
        ((s.after steps).step (.check user repo path)).1 := by
    intro others hsame hswitch path
    obtain ⟨l', hl', hremembers'⟩ := hledger others
    obtain ⟨hrules, hsupports⟩ := hremembers.eq_of_concerns hremembers' hsame
    rw [step_check_of_ledger hl', step_check_of_ledger hl, hswitch, hrules, hsupports]
  refine ⟨l.rulesOf user, l.supports repo, ?_, Ledger.nodup_keys_rulesOf hremembers.isDistinct user,
    ?_, hremembers.rules user repo, ?_, hremembers.supported repo,
    fun path => step_check_of_ledger hl user repo path, hothers, fun t ht hswitch => ?_⟩
  · simp [step, askLedger, hl]
  · rw [Ledger.mem_keys_rulesOf_iff, hremembers.listed]
  · simp [step, askLedger, hl]
  · -- a step about others is one that may be left out, and the switch stays as it was
    refine hothers (steps ++ [t]) ?_ ?_
    · rw [List.filter_append, List.filter_cons_of_neg (by simp [ht]), List.filter_nil,
        List.append_nil]
    · rw [after_concat, enforced_step _ hswitch]

theorem answers_after_writes_document :
    ∃ s, start .empty .empty (.text
        "supported_repos = ['r']\n[[rules]]\nuser_id = 5\nrepo = 'r'\npath_includes = ['r/**']")
        true .none = .ok s ∧
      ((s.after [.removeUser 6]).step (.check 5 "r" "a.rs")).1 = .permission .read := by
  let source : StoreSource := .text
    "supported_repos = ['r']\n[[rules]]\nuser_id = 5\nrepo = 'r'\npath_includes = ['r/**']"
  have hok : (start .empty .empty source true .none).toBool = true := by decide +kernel
  have hdocument : source.document? (.ofTree .empty .empty) =
      some ⟨["r"], [⟨5, "r", ⟨["r/**"], []⟩⟩]⟩ := by decide +kernel
  cases hstart : start .empty .empty source true .none with
  | error fault =>
    rw [hstart] at hok
    cases hok
  | ok s =>
    refine ⟨s, rfl, ?_⟩
    obtain ⟨d, hd, hanswers⟩ := answers_after_writes hstart trivial
    obtain rfl := Option.some.inj (hdocument.symm.trans hd)
    obtain ⟨found, supported, -, -, -, hrules, -, hsupported, hcheck, -⟩ :=
      hanswers [.removeUser 6] 5 "r"
    have hfound : found.lookup "r" = some ⟨["r/**"], []⟩ :=
      (hrules _).2 (.inl ⟨by decide, by simp [Step.WritesRules]⟩)
    have hyes : supported = true := hsupported.2 (.inl ⟨by decide, by simp [Step.WritesSupport]⟩)
    have hswitch : (s.after [.removeUser 6]).guard.enforced = true := by
      obtain ⟨store, -, hguard, -⟩ := start_eq_ok hstart
      exact (enforced_step s rfl).trans (by rw [hguard])
    rw [hcheck, hfound, hyes, hswitch]
    have hdecision : Guard.decision true true (some ⟨["r/**"], []⟩) 5 "r" "a.rs" = .ok .read := by
      decide +kernel
    rw [hdecision]
    rfl

end Session

end PathGuard
