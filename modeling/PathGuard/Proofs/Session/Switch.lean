import PathGuard.Proofs.Session.Run
import PathGuard.Proofs.Settings.Followers

/-!
# The switch and the settings

In a session with a board the switch is set by hand, by a follower that starts, and by the followers
when they are let run. What it is worth then is told from the history of the session: the settings that
were posted, the followers that started, and what was set by hand.

## Main definitions

- `Event`, `Session.history`: what happened to the switch and the board
- `newest`: the settings posted last
- `Pending`: a follower has something to see
- `Overridden`: the switch was set by hand, and nothing was posted or followed since

## Main results

- `Board.Tells`: what the board tells of the history, and `Board.Tells.take`: that it goes on to
- `Session.switch_follows_settings`: when the switch changes, and to what
-/

namespace PathGuard

/-- What happens to the switch and the board of a session. -/
inductive Event where
  | switched (value : Bool)
  | posted (settings : Settings)
  | followed
  | settled
  | closed

/-! ### Histories -/

/-- The settings posted last. -/
def newest (initial : Settings) (history : List Event) : Settings :=
  history.foldl
    (fun settings e => match e with
      | .posted posted => posted
      | _ => settings)
    initial

/-- A follower has something to see: since it started something was posted, and the followers have not
    run since. -/
def Pending (history : List Event) : Prop :=
  ∃ before after, history = before ++ .followed :: after ∧
    Held False (fun e => ∃ settings, e = .posted settings) (fun e => e ≠ .settled ∧ e ≠ .closed) after

/-- The switch was set by hand, and nothing was posted or followed since. -/
def Overridden (history : List Event) : Prop :=
  Held False (fun e => ∃ value, e = .switched value)
    (fun e => (∀ settings, e ≠ .posted settings) ∧ e ≠ .followed) history

theorem newest_concat (initial : Settings) (history : List Event) (e : Event) :
    newest initial (history ++ [e]) =
      match e with
      | .posted settings => settings
      | _ => newest initial history := by
  rw [newest, List.foldl_append]
  rfl

theorem not_pending_nil : ¬ Pending [] := by
  rintro ⟨before, after, h, -⟩
  simp at h

theorem pending_concat (history : List Event) (e : Event) :
    Pending (history ++ [e]) ↔
      (∃ settings, e = .posted settings) ∧ .followed ∈ history ∨
        (e ≠ .settled ∧ e ≠ .closed) ∧ Pending history := by
  constructor
  · rintro ⟨before, after, hhistory, hafter⟩
    -- nothing was posted yet since the last event, so the follower is an earlier one
    rcases List.eq_nil_or_concat' after with rfl | ⟨after, last, rfl⟩
    · exact (held_nil.1 hafter).elim
    · rw [← List.cons_append, ← List.append_assoc] at hhistory
      obtain ⟨rfl, rfl⟩ := List.append_singleton_inj.1 hhistory
      rcases (held_concat after e).1 hafter with hposted | ⟨hkept, hafter⟩
      · exact .inl ⟨hposted, by simp⟩
      · exact .inr ⟨hkept, before, after, rfl, hafter⟩
  · rintro (⟨hposted, hfollowed⟩ | ⟨hkept, before, after, rfl, hafter⟩)
    · obtain ⟨before, after, rfl⟩ := List.append_of_mem hfollowed
      exact ⟨before, after ++ [e], by simp, (held_concat after e).2 (.inl hposted)⟩
    · exact ⟨before, after ++ [e], by simp, (held_concat after e).2 (.inr ⟨hkept, hafter⟩)⟩

theorem overridden_concat (history : List Event) (e : Event) :
    Overridden (history ++ [e]) ↔
      (∃ value, e = .switched value) ∨
        ((∀ settings, e ≠ .posted settings) ∧ e ≠ .followed) ∧ Overridden history :=
  held_concat history e

namespace Board

/-- What an event does to the switch and the board. -/
def take (switch : Bool) (b : Board) : Event → Bool × Board
  | .switched value => (value, b)
  | .posted settings => (switch, b.post settings)
  | .followed => (b.current.enforced, b.follow)
  | .settled => settled (switch, b)
  | .closed => ((settled (switch, b)).1, b.close.2)

/-- Events that a closed board does not let happen. -/
def Admits (b : Board) : Event → Prop
  | .posted _ | .followed => b.isOpen = true
  | _ => True

/-- What the switch and a board tell of the history that led to them. -/
structure Tells (b : Board) (switch : Bool) (initial : Settings) (history : List Event) : Prop where
  current : b.current = newest initial history
  isOpen : b.isOpen = true ↔ .closed ∉ history
  followers : b.followers ≠ [] ↔ .followed ∈ history ∧ .closed ∉ history
  /-- No follower is ahead of the board. -/
  seen_le : ∀ seen ∈ b.followers, seen ≤ b.edition
  isUnseen : b.isUnseen = true ↔ Pending history
  switch : .followed ∈ history → ¬ Overridden history →
    switch = b.current.enforced ∨ b.isUnseen = true

theorem tells_fresh (switch : Bool) (initial : Settings) (source : Option String) :
    (fresh initial source).Tells switch initial [] := by
  constructor
  · rfl
  · simp [fresh]
  · simp [fresh]
  · simp [fresh]
  · simp [fresh, Board.isUnseen, not_pending_nil]
  · simp

theorem isUnseen_post {b : Board} (hseen : ∀ seen ∈ b.followers, seen ≤ b.edition)
    (settings : Settings) : (b.post settings).isUnseen = true ↔ b.followers ≠ [] := by
  rw [isUnseen, List.any_eq_true]
  constructor
  · rintro ⟨seen, hmem, -⟩
    exact List.ne_nil_of_mem hmem
  · intro hne
    obtain ⟨seen, hmem⟩ := List.exists_mem_of_ne_nil _ hne
    have hle := hseen seen hmem
    have hbehind : seen ≠ b.edition + 1 := by omega
    exact ⟨seen, hmem, bne_iff_ne.2 hbehind⟩

theorem isUnseen_follow (b : Board) : b.follow.isUnseen = b.isUnseen := by
  simp [isUnseen, follow]

theorem isUnseen_settle (b : Board) : b.settle.2.isUnseen = false := by
  simp [isUnseen, settle]

namespace Tells

variable {b : Board} {switch : Bool} {initial : Settings} {history : List Event}

theorem switched (h : b.Tells switch initial history) (value : Bool) :
    b.Tells value initial (history ++ [.switched value]) := by
  constructor
  · rw [newest_concat, h.current]
  · simp [h.isOpen]
  · simp [h.followers]
  · exact h.seen_le
  · simp [h.isUnseen, pending_concat]
  · intro _ hundisturbed
    exact absurd ((overridden_concat _ _).2 (.inl ⟨value, rfl⟩)) hundisturbed

theorem posted (h : b.Tells switch initial history) (hopen : b.isOpen = true)
    (settings : Settings) :
    (b.post settings).Tells switch initial (history ++ [.posted settings]) := by
  -- every follower is behind what was just posted, and there is one if any ever started
  have hunseen : (b.post settings).isUnseen = true ↔ .followed ∈ history := by
    rw [isUnseen_post h.seen_le, h.followers, and_iff_left (h.isOpen.1 hopen)]
  have hfollowed : Pending history → .followed ∈ history := by
    rintro ⟨before, after, rfl, -⟩
    simp
  constructor
  · rw [newest_concat]
    rfl
  · simpa [post] using h.isOpen
  · simpa [post] using h.followers
  · exact fun seen hseen => Nat.le_succ_of_le (h.seen_le seen hseen)
  · rw [hunseen, pending_concat]
    simpa using hfollowed
  · intro hmem _
    exact .inr (hunseen.2 (by simpa using hmem))

theorem followed (h : b.Tells switch initial history) (hopen : b.isOpen = true) :
    b.follow.Tells b.current.enforced initial (history ++ [.followed]) := by
  have hclosed := h.isOpen.1 hopen
  constructor
  · rw [newest_concat]
    exact h.current
  · simpa [follow] using h.isOpen
  · simp [follow, hclosed]
  · intro seen hseen
    rcases List.mem_cons.1 hseen with rfl | hseen
    · exact le_rfl
    · exact h.seen_le seen hseen
  · simp [isUnseen_follow, h.isUnseen, pending_concat]
  · exact fun _ _ => .inl rfl

/-- Once the followers have run, the switch is as the settings shown have it, unless it was set by
    hand. -/
theorem settled_eq (h : b.Tells switch initial history) (hfollowed : .followed ∈ history)
    (hundisturbed : ¬ Overridden history) : (settled (switch, b)).1 = b.current.enforced := by
  rw [settled_fst]
  rcases h.switch hfollowed hundisturbed with hswitch | hunseen
  · rw [hswitch, ite_self]
  · rw [if_pos hunseen]

theorem settled (h : b.Tells switch initial history) :
    b.settle.2.Tells (settled (switch, b)).1 initial (history ++ [.settled]) := by
  constructor
  · rw [newest_concat]
    exact h.current
  · simpa [settle] using h.isOpen
  · simpa [settle] using h.followers
  · intro seen hseen
    obtain ⟨-, -, rfl⟩ := List.mem_map.1 hseen
    exact le_rfl
  · simp [isUnseen_settle, pending_concat]
  · intro hfollowed hundisturbed
    have hbefore : ¬ Overridden history := by simpa [overridden_concat] using hundisturbed
    exact .inl (h.settled_eq (by simpa using hfollowed) hbefore)

theorem closed (h : b.Tells switch initial history) :
    b.close.2.Tells (Board.settled (switch, b)).1 initial (history ++ [.closed]) := by
  constructor
  · rw [newest_concat]
    exact h.current
  · simp [close]
  · simp [close]
  · simp [close]
  · simp [close, Board.isUnseen, pending_concat]
  · intro hfollowed hundisturbed
    have hbefore : ¬ Overridden history := by simpa [overridden_concat] using hundisturbed
    exact .inl (h.settled_eq (by simpa using hfollowed) hbefore)

/-- What a board tells of the history it goes on to tell with each event. -/
theorem take (h : b.Tells switch initial history) {e : Event} (hadmits : b.Admits e) :
    (b.take switch e).2.Tells (b.take switch e).1 initial (history ++ [e]) := by
  cases e with
  | switched value => exact h.switched value
  | posted settings => exact h.posted hadmits settings
  | followed => exact h.followed hadmits
  | settled => exact h.settled
  | closed => exact h.closed

/-- Receivers tell nothing. -/
theorem setReceivers (h : b.Tells switch initial history) (receivers : List ℕ) :
    { b with receivers }.Tells switch initial history :=
  ⟨h.current, h.isOpen, h.followers, h.seen_le, h.isUnseen, h.switch⟩

end Tells

end Board
namespace Session

/-- The board, while it is open. -/
def openBoard? (s : Session) : Option Board :=
  s.board.filter (·.isOpen)

/-- What happens to the switch and the board with a step, if it succeeds. -/
def event? (s : Session) : Step → Option Event
  | .setEnforced value => some (.switched value)
  | .publish text order => s.openBoard?.bind fun _ =>
    (Settings.ofText text order).toOption.map .posted
  | .reload orders => s.openBoard?.bind fun b =>
    (Settings.load (s.surroundings orders) b.source).toOption.map .posted
  | .follow => s.openBoard?.map fun _ => .followed
  | .settle => s.board.map fun _ => .settled
  | .close => s.board.map fun _ => .closed
  | _ => none

/-- What happened to the switch and the board in the course of some steps. -/
def history (s : Session) : List Step → List Event
  | [] => []
  | t :: steps => (s.event? t).toList ++ (s.step t).2.history steps

theorem history_concat (s : Session) (steps : List Step) (t : Step) :
    s.history (steps ++ [t]) = s.history steps ++ ((s.after steps).event? t).toList := by
  induction steps generalizing s with
  | nil => simp [history]
  | cons first steps ih =>
    have hafter : s.after (first :: steps) = (s.step first).2.after steps := rfl
    rw [List.cons_append, history, history, ih, hafter, List.append_assoc]

section Stepping

variable {s : Session} {b : Board} (hboard : s.board = some b)

include hboard

theorem openBoard?_eq : s.openBoard? = if b.isOpen then some b else none := by
  rw [openBoard?, hboard, Option.filter_some]

theorem onBoard_of_isOpen (hopen : b.isOpen = true) (act : Board → Answer × Session) :
    s.onBoard act = act b := by
  rw [onBoard, hboard]
  exact if_pos hopen

theorem onBoard_of_not_isOpen (hopen : b.isOpen = false) (act : Board → Answer × Session) :
    s.onBoard act = (.notApplicable, s) := by
  rw [onBoard, hboard]
  simp [hopen]

theorem letFollowers_eq (act : Board → Option Bool × Board) :
    (s.letFollowers act).2.guard.enforced = (act b).1.getD s.guard.enforced ∧
      (s.letFollowers act).2.board = some (act b).2 := by
  rw [letFollowers, hboard]
  rcases hact : act b with ⟨_ | value, b'⟩ <;> simp [hact, applyFollowers, setSwitch]

/-- A post that happens is one of settings that could be read. -/
theorem posted_of_event? {read : Board → Except LoadFault Settings} {e : Event}
    (he : s.openBoard?.bind (fun b => (read b).toOption.map Event.posted) = some e) :
    b.isOpen = true ∧ ∃ settings, read b = .ok settings ∧ e = .posted settings := by
  rw [openBoard?_eq hboard] at he
  cases hopen : b.isOpen with
  | false => simp [hopen] at he
  | true =>
    cases hread : read b with
    | error fault => simp [hopen, hread, Except.toOption] at he
    | ok settings =>
      refine ⟨rfl, settings, rfl, ?_⟩
      simpa [hopen, hread, Except.toOption, eq_comm] using he

/-- A step with an event does to the switch and the board what the event does. -/
theorem step_of_event? {t : Step} {e : Event} (he : s.event? t = some e) :
    b.Admits e ∧ (s.step t).2.guard.enforced = (b.take s.guard.enforced e).1 ∧
      (s.step t).2.board = some (b.take s.guard.enforced e).2 := by
  cases t with
  | setEnforced value =>
    obtain rfl := Option.some.inj he
    exact ⟨trivial, rfl, hboard⟩
  | publish text order =>
    obtain ⟨hopen, settings, hread, rfl⟩ := posted_of_event? hboard he
    rw [step, onBoard_of_isOpen hboard hopen, hread]
    exact ⟨hopen, rfl, rfl⟩
  | reload orders =>
    obtain ⟨hopen, settings, hread, rfl⟩ := posted_of_event? hboard he
    rw [step, onBoard_of_isOpen hboard hopen, hread]
    exact ⟨hopen, rfl, rfl⟩
  | follow =>
    rw [event?, openBoard?_eq hboard] at he
    cases hopen : b.isOpen with
    | false => simp [hopen] at he
    | true =>
      obtain rfl : .followed = e := by simpa [hopen] using he
      rw [step, onBoard_of_isOpen hboard hopen]
      exact ⟨hopen, rfl, rfl⟩
  | settle =>
    rw [event?, hboard] at he
    obtain rfl := Option.some.inj he
    exact ⟨trivial, letFollowers_eq hboard Board.settle⟩
  | close =>
    rw [event?, hboard] at he
    obtain rfl := Option.some.inj he
    exact ⟨trivial, letFollowers_eq hboard Board.close⟩
  | _ => cases he

theorem onBoard_postResult_snd {read : Board → Except LoadFault Settings}
    (he : s.openBoard?.bind (fun b => (read b).toOption.map Event.posted) = none) :
    (s.onBoard fun b => s.postResult b (read b)).2 = s := by
  rw [openBoard?_eq hboard] at he
  cases hopen : b.isOpen with
  | false => rw [onBoard_of_not_isOpen hboard hopen]
  | true =>
    rw [onBoard_of_isOpen hboard hopen]
    cases hread : read b with
    | error fault => rfl
    | ok settings => simp [hopen, hread, Except.toOption] at he

/-- A step without an event leaves the switch alone, and of the board all but its receivers. -/
theorem step_of_event?_eq_none {t : Step} (he : s.event? t = none) :
    (s.step t).2.guard.enforced = s.guard.enforced ∧
      ∃ receivers, (s.step t).2.board = some { b with receivers } := by
  have hstay : ∀ s' : Session, s' = s → s'.guard.enforced = s.guard.enforced ∧
      ∃ receivers, s'.board = some { b with receivers } := by
    rintro s' rfl
    exact ⟨rfl, b.receivers, hboard⟩
  cases hstore : t.isAtStore with
  | true =>
    obtain ⟨store, hstep⟩ := exists_withStore_step s hstore
    rw [hstep]
    exact ⟨rfl, b.receivers, hboard⟩
  | false =>
    cases t with
    | enforced => exact hstay _ rfl
    | setEnforced value => cases he
    | current =>
      refine hstay _ (onBoard_cases s (P := fun r => r.2 = s) rfl fun _ _ _ => rfl)
    | publish text order => exact hstay _ (onBoard_postResult_snd hboard he)
    | reload orders => exact hstay _ (onBoard_postResult_snd hboard he)
    | subscribe =>
      rcases Bool.eq_false_or_eq_true b.isOpen with hopen | hopen
      · rw [step, onBoard_of_isOpen hboard hopen]
        exact ⟨rfl, _, rfl⟩
      · rw [step, onBoard_of_not_isOpen hboard hopen]
        exact hstay s rfl
    | receive index =>
      rw [step, receive, hboard]
      dsimp only
      rw [Board.receive?]
      cases b.receivers[index]? with
      | none => exact hstay _ rfl
      | some seen => exact ⟨rfl, _, rfl⟩
    | follow =>
      rw [event?, openBoard?_eq hboard] at he
      rcases Bool.eq_false_or_eq_true b.isOpen with hopen | hopen
      · simp [hopen] at he
      · rw [step, onBoard_of_not_isOpen hboard hopen]
        exact hstay s rfl
    | settle =>
      rw [event?, hboard] at he
      cases he
    | close =>
      rw [event?, hboard] at he
      cases he
    | writeFile path bytes => exact ⟨rfl, b.receivers, hboard⟩
    | makeDirectory path => exact ⟨rfl, b.receivers, hboard⟩
    | removePath path => exact ⟨rfl, b.receivers, hboard⟩
    | setVariable name value => cases value <;> exact ⟨rfl, b.receivers, hboard⟩
    | _ => cases hstore

end Stepping

variable {files : FileTree} {environment : Environment} {source : StoreSource} {enforced : Bool}
  {board : BoardSource} {s : Session}

/-- What the board of a session tells of what happened. -/
theorem exists_tells_after {b : Board} (hboard : s.board = some b)
    (hstart : b.Tells s.guard.enforced b.current []) (steps : List Step) :
    ∃ b', (s.after steps).board = some b' ∧
      b'.Tells (s.after steps).guard.enforced b.current (s.history steps) := by
  induction steps using after_induction (s := s) with
  | start => exact ⟨b, hboard, hstart⟩
  | step steps t ih =>
    obtain ⟨b', hb', htells⟩ := ih
    rw [history_concat]
    -- a step is an event of the history, or does not show on the board but for its receivers
    cases he : (s.after steps).event? t with
    | none =>
      obtain ⟨hswitch, receivers, hnext⟩ := step_of_event?_eq_none hb' he
      rw [hswitch, hnext, Option.toList_none, List.append_nil]
      exact ⟨_, rfl, htells.setReceivers receivers⟩
    | some e =>
      obtain ⟨hadmits, hswitch, hnext⟩ := step_of_event? hb' he
      rw [hswitch, hnext, Option.toList_some]
      exact ⟨_, rfl, htells.take hadmits⟩

/-- The board of a session that starts is fresh. -/
theorem exists_fresh_of_start (hstart : start files environment source enforced board = .ok s)
    {b : Board} (hboard : s.board = some b) : ∃ document, b = .fresh b.current document := by
  obtain ⟨-, -, -, hb⟩ := start_eq_ok hstart
  rw [hboard] at hb
  cases board with
  | none => cases hb
  | text document =>
    obtain ⟨settings, -, hfresh⟩ := exists_of_map_eq_ok hb
    obtain rfl := Option.some.inj hfresh
    exact ⟨.none, rfl⟩
  | load path =>
    obtain ⟨settings, -, hfresh⟩ := exists_of_map_eq_ok hb
    obtain rfl := Option.some.inj hfresh
    exact ⟨path, rfl⟩

/-- The switch after one more step. -/
def switchAfter (s : Session) (t : Step) : Bool :=
  (s.step t).2.guard.enforced

theorem switchAfter_settle_or_close {b : Board} (hboard : s.board = some b) {t : Step}
    (ht : t = .settle ∨ t = .close) :
    s.switchAfter t = (Board.settled (s.guard.enforced, b)).1 := by
  rcases ht with rfl | rfl
  · exact (letFollowers_eq hboard Board.settle).1
  · exact (letFollowers_eq hboard Board.close).1

/-- A closed board has no followers and takes no more, so only setting the switch by hand changes
    it. -/
theorem switchAfter_of_not_isOpen {b : Board} (hboard : s.board = some b) (hopen : b.isOpen = false)
    (hunseen : b.isUnseen = false) {t : Step} (ht : ∀ value, t ≠ .setEnforced value) :
    s.switchAfter t = s.guard.enforced := by
  have hsettled : (Board.settled (s.guard.enforced, b)).1 = s.guard.enforced := by
    rw [Board.settled_of_isUnseen_eq_false hunseen]
  cases hswitch : t.maySwitch with
  | false => exact enforced_step s hswitch
  | true =>
    cases t with
    | setEnforced value => exact absurd rfl (ht value)
    | follow => rw [switchAfter, step, onBoard_of_not_isOpen hboard hopen]
    | settle => rw [switchAfter_settle_or_close hboard (.inl rfl), hsettled]
    | close => rw [switchAfter_settle_or_close hboard (.inr rfl), hsettled]
    | _ => cases hswitch

/-- At every point of a session with a board: posting settings does not change the switch, and a
    follower that starts sets it as the newest settings have it. Letting the followers run, or finish,
    does so as well if one of them has something to see, and leaves the switch alone otherwise, in
    whatever order they look. So then the switch is as the newest settings have it, if there was a
    follower at all and the switch was not set by hand since the last post and the last follower's
    start. Once the board is closed only setting the switch by hand changes it. -/
theorem switch_follows_settings (hstart : start files environment source enforced board = .ok s)
    {b : Board} (hboard : s.board = some b) (steps : List Step) :
    ∃ b' settings, (s.after steps).board = some b' ∧ b'.current = settings ∧
      settings = newest b.current (s.history steps) ∧
      (Pending (s.history steps) ↔ ∃ seen ∈ b'.followers, seen ≠ b'.edition) ∧
      (∀ t, (∃ text order, t = .publish text order) ∨ (∃ orders, t = .reload orders) →
        (s.after steps).switchAfter t = (s.after steps).guard.enforced) ∧
      (.closed ∉ s.history steps → (s.after steps).switchAfter .follow = settings.enforced) ∧
      (∀ t, t = .settle ∨ t = .close →
        (Pending (s.history steps) → (s.after steps).switchAfter t = settings.enforced) ∧
        (¬ Pending (s.history steps) →
          (s.after steps).switchAfter t = (s.after steps).guard.enforced) ∧
        (∀ order : List ℕ, (∀ index < b'.followers.length, index ∈ order) →
          (s.after steps).switchAfter t =
            (order.foldl Board.look ((s.after steps).guard.enforced, b')).1) ∧
        (.followed ∈ s.history steps → ¬ Overridden (s.history steps) →
          (s.after steps).switchAfter t = settings.enforced)) ∧
      (.closed ∈ s.history steps → ∀ t, (∀ value, t ≠ .setEnforced value) →
        (s.after steps).switchAfter t = (s.after steps).guard.enforced) := by
  obtain ⟨document, hfresh⟩ := exists_fresh_of_start hstart hboard
  have htells : b.Tells s.guard.enforced b.current [] := by
    rw [hfresh]
    exact Board.tells_fresh s.guard.enforced b.current document
  obtain ⟨b', hb', htells⟩ := exists_tells_after hboard htells steps
  have hbehind : b'.isUnseen = true ↔ ∃ seen ∈ b'.followers, seen ≠ b'.edition := by
    simp [Board.isUnseen]
  refine ⟨b', b'.current, hb', rfl, htells.current, htells.isUnseen.symm.trans hbehind, ?_, ?_,
    fun t ht => ⟨?_, ?_, ?_, ?_⟩, ?_⟩
  · rintro t (⟨text, order, rfl⟩ | ⟨orders, rfl⟩)
    · exact enforced_step _ rfl
    · exact enforced_step _ rfl
  · intro hclosed
    rw [switchAfter, step, onBoard_of_isOpen hb' (htells.isOpen.2 hclosed)]
    rfl
  · intro hpending
    rw [switchAfter_settle_or_close hb' ht, Board.settled_fst, if_pos (htells.isUnseen.2 hpending)]
  · intro hpending
    rw [switchAfter_settle_or_close hb' ht, Board.settled_fst,
      if_neg fun h => hpending (htells.isUnseen.1 h)]
  · intro order horder
    rw [switchAfter_settle_or_close hb' ht, Board.foldl_look _ horder]
  · intro hfollowed hundisturbed
    rw [switchAfter_settle_or_close hb' ht, htells.settled_eq hfollowed hundisturbed]
  · intro hclosed t ht
    have hopen : b'.isOpen = false := by
      rw [← Bool.not_eq_true, htells.isOpen]
      exact not_not_intro hclosed
    have hunseen : b'.isUnseen = false := by
      have hnone : b'.followers = [] := by
        by_contra hne
        exact (htells.followers.1 hne).2 hclosed
      simp [Board.isUnseen, hnone]
    exact switchAfter_of_not_isOpen hb' hopen hunseen ht

theorem switch_follows_settings_posted :
    ∃ s, start .empty .empty .none false (.text "") = .ok s ∧
      (s.after [.follow,
        .publish "[experimental_features]\nenable_sub_repo_permissions = true"]).switchAfter .close =
          true := by
  let text := "[experimental_features]\nenable_sub_repo_permissions = true"
  have hinitial : (Settings.ofText "").toBool = true := by decide +kernel
  have hposted : (Settings.ofText text).toOption = some ⟨true, "info", .pretty⟩ := by decide +kernel
  cases hread : Settings.ofText "" with
  | error fault =>
    rw [hread] at hinitial
    cases hinitial
  | ok settings =>
    let s : Session := ⟨⟨false, none⟩, some (.fresh settings none), .empty, .empty⟩
    have hstart : start .empty .empty .none false (.text "") = .ok s := by
      simp only [start, BoardSource.board, hread]
      rfl
    have hhistory : s.history [.follow, .publish text] =
        [.followed, .posted ⟨true, "info", .pretty⟩] := by
      simp [history, event?, step, onBoard, openBoard?, s, hposted, Board.fresh, Board.follow,
        Option.filter_some]
    have hpending : Pending [.followed, .posted ⟨true, "info", .pretty⟩] :=
      ⟨[], _, rfl, .inr ⟨[], _, [], rfl, ⟨_, rfl⟩, by simp⟩⟩
    obtain ⟨b, newest, -, -, hnewest, -, -, -, hrun, -⟩ :=
      switch_follows_settings hstart rfl [.follow, .publish text]
    rw [hhistory] at hrun hnewest
    refine ⟨s, hstart, ?_⟩
    rw [(hrun .close (.inr rfl)).1 hpending, hnewest]
    rfl

end Session

end PathGuard
