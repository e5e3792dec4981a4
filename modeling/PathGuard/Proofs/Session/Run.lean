import Mathlib.Data.List.Basic
import Mathlib.Data.List.Induction
import PathGuard.Proofs.Guard.Ledger
import PathGuard.Session

/-!
# Steps one after the other

What holds of a session after some steps is shown step by step: of the start, and after one more step
if it held before. Much of it held at the start or came to hold with some step, and was kept by every
step since.

## Main definitions

- `Held`: what was kept since the start or since some event
- `Session.after`: the state that steps lead to

## Main results

- `held_concat`: what holds after one more event
- `Session.run_concat`: the answer of a step after others
- `Session.after_induction`: an invariant that ties the state to the steps so far
-/

namespace PathGuard

section Held

variable {σ : Type} {start : Prop} {P Q : σ → Prop}

/-- What held at the start or came to hold with some event, and was kept by every event since. -/
def Held (start : Prop) (P Q : σ → Prop) (events : List σ) : Prop :=
  (start ∧ ∀ e ∈ events, Q e) ∨
    ∃ before e after, events = before ++ e :: after ∧ P e ∧ ∀ u ∈ after, Q u

@[simp] theorem held_nil : Held start P Q [] ↔ start := by
  simp [Held]

/-- After one more event it holds because of that event, or because it was kept. -/
theorem held_concat (events : List σ) (e : σ) :
    Held start P Q (events ++ [e]) ↔ P e ∨ Q e ∧ Held start P Q events := by
  constructor
  · rintro (⟨hstart, hkept⟩ | ⟨before, e', after, hevents, he', hafter⟩)
    · rw [List.forall_mem_append, List.forall_mem_singleton] at hkept
      exact .inr ⟨hkept.2, .inl ⟨hstart, hkept.1⟩⟩
    · -- the event is the one that made it hold, or comes after that one
      rcases List.eq_nil_or_concat' after with rfl | ⟨after, last, rfl⟩
      · obtain ⟨-, rfl⟩ := List.append_singleton_inj.1 hevents
        exact .inl he'
      · rw [← List.cons_append, ← List.append_assoc] at hevents
        obtain ⟨rfl, rfl⟩ := List.append_singleton_inj.1 hevents
        rw [List.forall_mem_append, List.forall_mem_singleton] at hafter
        exact .inr ⟨hafter.2, .inr ⟨before, e', after, rfl, he', hafter.1⟩⟩
  · rintro (he | ⟨he, ⟨hstart, hkept⟩ | ⟨before, e', after, rfl, he', hafter⟩⟩)
    · exact .inr ⟨events, e, [], rfl, he, by simp⟩
    · refine .inl ⟨hstart, ?_⟩
      rw [List.forall_mem_append, List.forall_mem_singleton]
      exact ⟨hkept, he⟩
    · refine .inr ⟨before, e', after ++ [e], by simp, he', ?_⟩
      rw [List.forall_mem_append, List.forall_mem_singleton]
      exact ⟨hafter, he⟩

/-- Events that neither make it hold nor end it may be left out. -/
theorem held_filter {keep : σ → Bool} (h : ∀ e, keep e = false → ¬ P e ∧ Q e) (events : List σ) :
    Held start P Q (events.filter keep) ↔ Held start P Q events := by
  induction events using List.reverseRecOn with
  | nil => rfl
  | append_singleton events e ih =>
    rw [List.filter_append, held_concat]
    cases hkeep : keep e with
    | false =>
      obtain ⟨hno, hkept⟩ := h e hkeep
      simp [hkeep, hno, hkept, ih]
    | true =>
      rw [List.filter_cons_of_pos hkeep, List.filter_nil, held_concat, ih]

end Held

namespace Session

/-- The state that steps lead to. -/
def after (s : Session) (steps : List Step) : Session :=
  steps.foldl (fun s step => (s.step step).2) s

@[simp] theorem after_nil (s : Session) : s.after [] = s :=
  rfl

@[simp] theorem after_concat (s : Session) (steps : List Step) (t : Step) :
    s.after (steps ++ [t]) = ((s.after steps).step t).2 := by
  rw [after, List.foldl_append]
  rfl

theorem run_append (s : Session) (steps later : List Step) :
    s.run (steps ++ later) = s.run steps ++ (s.after steps).run later := by
  induction steps generalizing s with
  | nil => rfl
  | cons t steps ih =>
    have hafter : s.after (t :: steps) = (s.step t).2.after steps := rfl
    rw [List.cons_append, run, run, hafter]
    simp only [ih, List.cons_append]

/-- The answers of some steps and one more: the last one is given in the state that the others lead
    to. -/
theorem run_concat (s : Session) (steps : List Step) (t : Step) :
    s.run (steps ++ [t]) =
      s.run steps ++ [(((s.after steps).step t).1, (s.after (steps ++ [t])).guard.enforced)] := by
  rw [run_append, after_concat]
  rfl

/-- What holds of the start, and after one more step whenever it held before, holds after all
    steps. -/
theorem after_induction {s : Session} {P : List Step → Session → Prop} (start : P [] s)
    (step : ∀ steps t, P steps (s.after steps) → P (steps ++ [t]) ((s.after steps).step t).2)
    (steps : List Step) : P steps (s.after steps) := by
  induction steps using List.reverseRecOn with
  | nil => exact start
  | append_singleton steps t ih =>
    rw [after_concat]
    exact step steps t ih

theorem exists_of_map_eq_ok {ε α β : Type} {f : α → β} {x : Except ε α} {y : β}
    (h : x.map f = .ok y) : ∃ a, x = .ok a ∧ y = f a := by
  cases x with
  | error fault => cases h
  | ok a => exact ⟨a, rfl, (Except.ok.inj h).symm⟩

theorem exists_of_bind_eq_ok {ε α β : Type} {f : α → Except ε β} {x : Except ε α} {y : β}
    (h : x >>= f = .ok y) : ∃ a, x = .ok a ∧ f a = .ok y := by
  cases x with
  | error fault => cases h
  | ok a => exact ⟨a, rfl, h⟩

/-- A session that starts has the guard and the board that its sources give. -/
theorem start_eq_ok {files : FileTree} {environment : Environment} {source : StoreSource}
    {enforced : Bool} {board : BoardSource} {s : Session}
    (h : start files environment source enforced board = .ok s) :
    ∃ store, source.store (.ofTree files environment) = .ok store ∧
      s.guard = ⟨enforced, store⟩ ∧
      board.board (.ofTree files environment) = .ok s.board := by
  obtain ⟨store, hstore, hboard⟩ := exists_of_bind_eq_ok h
  obtain ⟨b, hb, hs⟩ := exists_of_bind_eq_ok hboard
  obtain rfl := Except.ok.inj hs
  exact ⟨store, hstore, rfl, hb⟩

/-! ### What a step leaves alone -/

variable (s : Session)

/-- A step on the board is taken as it is, or leaves the session alone. -/
theorem onBoard_cases {act : Board → Answer × Session} {P : Answer × Session → Prop}
    (stay : P (.notApplicable, s))
    (acts : ∀ b, s.board = some b → b.isOpen = true → P (act b)) : P (s.onBoard act) := by
  unfold onBoard
  cases hboard : s.board with
  | none => exact stay
  | some b =>
    cases hopen : b.isOpen with
    | false => simpa [hopen] using stay
    | true => simpa [hopen] using acts b hboard hopen

theorem store_onBoard {act : Board → Answer × Session}
    (acts : ∀ b, (act b).2.guard.store = s.guard.store) :
    (s.onBoard act).2.guard.store = s.guard.store :=
  onBoard_cases s (P := fun r => r.2.guard.store = s.guard.store) rfl fun b _ _ => acts b

theorem guard_onBoard {act : Board → Answer × Session} (acts : ∀ b, (act b).2.guard = s.guard) :
    (s.onBoard act).2.guard = s.guard :=
  onBoard_cases s (P := fun r => r.2.guard = s.guard) rfl fun b _ _ => acts b

theorem guard_postResult (b : Board) (result : Except LoadFault Settings) :
    (s.postResult b result).2.guard = s.guard := by
  cases result <;> rfl

theorem guard_receive (index : Nat) : (s.receive index).2.guard = s.guard := by
  unfold receive
  cases s.board with
  | none => rfl
  | some b => cases hreceive : b.receive? index <;> simp [hreceive]

theorem store_letFollowers (act : Board → Option Bool × Board) :
    (s.letFollowers act).2.guard.store = s.guard.store := by
  unfold letFollowers
  cases s.board with
  | none => rfl
  | some b => rcases hact : act b with ⟨_ | value, b'⟩ <;> simp [hact, applyFollowers, setSwitch]

theorem askLedger_snd (answer : Ledger → Answer) : (s.askLedger answer).2 = s := by
  unfold askLedger
  split <;> rfl

theorem askProbe_snd (answer : Probe → Answer) : (s.askProbe answer).2 = s := by
  unfold askProbe
  split <;> rfl

/-- A session with another store, or without one. -/
def withStore (store : Option Store) : Session :=
  { s with guard := { s.guard with store } }

/-- Whether a step is about the store: it asks it or changes it. -/
def Step.isAtStore : Step → Bool
  | .check _ _ _ | .checkActor _ _ _ | .readable _ _ _ | .putRules _ _ _ | .removeUser _
  | .setSupported _ _ | .rulesOf _ | .supports _ | .markUnsupported _ | .failSupport _
  | .failRules _ | .calls => true
  | _ => false

theorem exists_withStore_changeLedger (change : Ledger → Ledger) :
    ∃ store, (s.changeLedger change).2 = s.withStore store := by
  unfold changeLedger
  split
  · exact ⟨_, rfl⟩
  · exact ⟨s.guard.store, rfl⟩

theorem exists_withStore_changeProbe (change : Probe → Probe) :
    ∃ store, (s.changeProbe change).2 = s.withStore store := by
  unfold changeProbe
  split
  · exact ⟨_, rfl⟩
  · exact ⟨s.guard.store, rfl⟩

theorem exists_withStore_putRules (user : UserId) (repo : RepoName) (rules : PathRules) :
    ∃ store, (s.putRules user repo rules).2 = s.withStore store := by
  unfold putRules
  split
  · exact ⟨_, rfl⟩
  · exact ⟨_, rfl⟩
  · exact ⟨s.guard.store, rfl⟩

theorem exists_withStore_runCheck {α : Type} {check : Guard.Check α} {es : List Enquiry}
    (hafter : check.after s.guard = s.guard.asked es) (answer : α → Answer) :
    ∃ store, (s.runCheck check answer).2 = s.withStore store := by
  have hstate : (s.runCheck check answer).2 = { s with guard := check.after s.guard } := rfl
  rw [hstate, hafter]
  exact ⟨_, rfl⟩

/-- A step that is about the store changes nothing else, also if it fails. -/
theorem exists_withStore_step {t : Step} (ht : t.isAtStore = true) :
    ∃ store, (s.step t).2 = s.withStore store := by
  cases t with
  | check user repo path =>
    exact exists_withStore_runCheck s (Guard.after_check s.guard user repo path) _
  | checkActor actor repo path =>
    obtain ⟨es, hafter⟩ := Guard.exists_after_checkActor s.guard actor repo path
    exact exists_withStore_runCheck s hafter _
  | readable actor repo paths =>
    obtain ⟨es, hafter⟩ := Guard.exists_after_readable s.guard actor repo paths
    exact exists_withStore_runCheck s hafter _
  | putRules user repo rules => exact exists_withStore_putRules s user repo rules
  | removeUser user => exact exists_withStore_changeLedger s _
  | setSupported repo value => exact exists_withStore_changeLedger s _
  | rulesOf user => exact ⟨s.guard.store, askLedger_snd s _⟩
  | supports repo => exact ⟨s.guard.store, askLedger_snd s _⟩
  | markUnsupported repo => exact exists_withStore_changeProbe s _
  | failSupport fault => exact exists_withStore_changeProbe s _
  | failRules fault => exact exists_withStore_changeProbe s _
  | calls => exact ⟨s.guard.store, askProbe_snd s _⟩
  | _ => cases ht

/-- Whether a step may change the switch. -/
def Step.maySwitch : Step → Bool
  | .setEnforced _ | .follow | .settle | .close => true
  | _ => false

/-- Steps that may not change the switch leave it as it was, also those that fail. -/
theorem enforced_step {t : Step} (ht : t.maySwitch = false) :
    (s.step t).2.guard.enforced = s.guard.enforced := by
  cases hstore : t.isAtStore with
  | true =>
    obtain ⟨store, hstep⟩ := exists_withStore_step s hstore
    rw [hstep]
    rfl
  | false =>
    cases t with
    | setEnforced value => cases ht
    | follow => cases ht
    | settle => cases ht
    | close => cases ht
    | current => rw [step, guard_onBoard s fun _ => rfl]
    | publish text order => rw [step, guard_onBoard s fun b => guard_postResult s b _]
    | reload orders => rw [step, guard_onBoard s fun b => guard_postResult s b _]
    | subscribe => rw [step, guard_onBoard s fun _ => rfl]
    | receive index => rw [step, guard_receive]
    | setVariable name value => cases value <;> rfl
    | enforced => rfl
    | writeFile path bytes => rfl
    | makeDirectory path => rfl
    | removePath path => rfl
    | _ => cases hstore

end Session

end PathGuard
