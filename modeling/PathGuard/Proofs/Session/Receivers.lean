import PathGuard.Proofs.Session.Omission
import PathGuard.Proofs.Session.Switch

/-!
# What receivers are told

A receiver of a board remembers the edition that it last saw. What it is told when it looks is known from
the answers given so far alone: there is news for it just when settings were posted since it last looked,
or since it was added. Other receivers, followers and posts that fail do not matter to it.

## Main definitions

- `Session.Posts`, `Session.Joins`, `Session.Looks`: steps that succeed in posting, in adding a receiver,
  and in letting one look
- `Session.HasNews`: something was posted since a receiver last looked

## Main results

- `Session.exists_moves_step`: what a step does to the receivers, as its answer tells
- `Session.exists_serves_after`: what the receivers have seen
- `Session.receive_tells_news`: what a receiver is told
-/

namespace PathGuard

namespace Session

/-! ### Looks and posts in a transcript -/

/-- A step that posts settings if it can load them, from a text or from a document. -/
def Step.MayPost (t : Step) : Prop :=
  (∃ text order, t = .publish text order) ∨ ∃ orders, t = .reload orders

/-- Settings were loaded and posted, whether they are new or not. -/
def Posts (e : Step × Answer × Bool) : Prop :=
  e.1.MayPost ∧ e.2.1 = .done

/-- A receiver was added, with the given index. -/
def Joins (index : ℕ) (e : Step × Answer × Bool) : Prop :=
  e.1 = .subscribe ∧ e.2.1 = .index index

/-- A receiver looked, or was added, for which the settings shown then are not new. -/
def Looks (index : ℕ) (e : Step × Answer × Bool) : Prop :=
  Joins index e ∨ e.1 = .receive index ∧ ∃ changed settings, e.2.1 = .received changed settings

/-- Something was posted since a receiver last looked, or since it was added if it has not looked. -/
def HasNews (index : ℕ) (entries : List (Step × Answer × Bool)) : Prop :=
  ∃ before last after, entries = before ++ last :: after ∧ Looks index last ∧
    (∀ e ∈ after, ¬ Looks index e) ∧ ∃ e ∈ after, Posts e

/-- Of the elements with a property there is a last one. -/
theorem exists_last_of_mem {σ : Type} {p : σ → Prop} {l : List σ} (h : ∃ a ∈ l, p a) :
    ∃ before last after, l = before ++ last :: after ∧ p last ∧ ∀ a ∈ after, ¬ p a := by
  induction l using List.reverseRecOn with
  | nil => simp at h
  | append_singleton l a ih =>
    by_cases ha : p a
    · exact ⟨l, a, [], rfl, ha, by simp⟩
    · obtain ⟨b, hmem, hb⟩ := h
      rcases List.mem_append.1 hmem with hmem | hmem
      · obtain ⟨before, last, after, rfl, hlast, hafter⟩ := ih ⟨b, hmem, hb⟩
        refine ⟨before, last, after ++ [a], by simp, hlast, ?_⟩
        rw [List.forall_mem_append, List.forall_mem_singleton]
        exact ⟨hafter, ha⟩
      · obtain rfl := List.mem_singleton.1 hmem
        exact absurd hb ha

/-- After one more entry there is news if that entry posts, and there was news before if it does not;
    unless it is the receiver that looks. -/
theorem hasNews_concat (index : ℕ) (entries : List (Step × Answer × Bool))
    (e : Step × Answer × Bool) :
    HasNews index (entries ++ [e]) ↔
      ¬ Looks index e ∧ (Posts e ∧ (∃ u ∈ entries, Looks index u) ∨ HasNews index entries) := by
  constructor
  · rintro ⟨before, last, after, hentries, hlast, hafter, u, hu, hposts⟩
    -- something was posted after the last look, so the last entry comes after that look as well
    rcases List.eq_nil_or_concat' after with rfl | ⟨after, e', rfl⟩
    · simp at hu
    · rw [← List.cons_append, ← List.append_assoc] at hentries
      obtain ⟨rfl, rfl⟩ := List.append_singleton_inj.1 hentries
      rw [List.forall_mem_append, List.forall_mem_singleton] at hafter
      refine ⟨hafter.2, ?_⟩
      rcases List.mem_append.1 hu with hu | hu
      · exact .inr ⟨before, last, after, rfl, hlast, hafter.1, u, hu, hposts⟩
      · obtain rfl := List.mem_singleton.1 hu
        exact .inl ⟨hposts, last, by simp, hlast⟩
  · rintro ⟨hlook, ⟨hposts, hjoined⟩ | ⟨before, last, after, rfl, hlast, hafter, u, hu, hposts⟩⟩
    · -- the last of the looks so far is one after which nobody looks
      obtain ⟨before, last, after, rfl, hlast, hafter⟩ := exists_last_of_mem hjoined
      refine ⟨before, last, after ++ [e], by simp, hlast, ?_, e, by simp, hposts⟩
      rw [List.forall_mem_append, List.forall_mem_singleton]
      exact ⟨hafter, hlook⟩
    · refine ⟨before, last, after ++ [e], by simp, hlast, ?_, u, List.mem_append_left _ hu, hposts⟩
      rw [List.forall_mem_append, List.forall_mem_singleton]
      exact ⟨hafter, hlook⟩

theorem transcript_concat (s : Session) (steps : List Step) (t : Step) :
    s.transcript (steps ++ [t]) =
      s.transcript steps ++
        [(t, ((s.after steps).step t).1, (s.after (steps ++ [t])).guard.enforced)] := by
  induction steps generalizing s with
  | nil => rfl
  | cons first steps ih =>
    rw [List.cons_append, transcript_cons, transcript_cons, ih, List.cons_append]
    rfl

section Entries

variable {e : Step × Answer × Bool} {index other : ℕ}

theorem Joins.looks (h : Joins index e) : Looks index e :=
  .inl h

theorem not_looks_of_mayPost (h : e.1.MayPost) (index : ℕ) : ¬ Looks index e := by
  rintro (⟨ht, -⟩ | ⟨ht, -⟩) <;> rcases h with ⟨text, order, h⟩ | ⟨orders, h⟩ <;> rw [ht] at h <;>
    cases h

theorem exists_joins_concat (entries : List (Step × Answer × Bool)) :
    (∃ u ∈ entries ++ [e], Joins index u) ↔ (∃ u ∈ entries, Joins index u) ∨ Joins index e := by
  simp only [List.mem_append, List.mem_singleton, or_and_right, exists_or, exists_eq_left]

end Entries

/-! ### What receivers have seen -/

/-- What the receivers of a board have seen of the entries that led to it. -/
structure Serves (b : Board) (entries : List (Step × Answer × Bool)) : Prop where
  joined (index : ℕ) : b.receivers[index]?.isSome = true ↔ ∃ e ∈ entries, Joins index e
  /-- No receiver is ahead of the board. -/
  seen_le {index seen : ℕ} (hseen : b.receivers[index]? = some seen) : seen ≤ b.edition
  hasNews {index seen : ℕ} (hseen : b.receivers[index]? = some seen) :
    seen ≠ b.edition ↔ HasNews index entries

theorem serves_fresh (settings : Settings) (source : Option String) :
    Serves (.fresh settings source) [] := by
  constructor
  · simp [Board.fresh]
  · intro index seen hseen
    cases hseen
  · intro index seen hseen
    cases hseen

/-- What a step does to a board as its receivers see it, told from its answer. -/
structure Moves (b b' : Board) (e : Step × Answer × Bool) : Prop where
  posted : Posts e → b'.edition = b.edition + 1
  unposted : ¬ Posts e → b'.edition = b.edition ∧ b'.current = b.current
  unclosed : e.1 ≠ .close → b'.isOpen = b.isOpen
  looked (index : ℕ) : Looks index e → b'.receivers[index]? = some b.edition
  unlooked (index : ℕ) : ¬ Looks index e → b'.receivers[index]? = b.receivers[index]?
  joined (index : ℕ) : Looks index e → Joins index e ∨ b.receivers[index]?.isSome = true

/-- What the receivers have seen is kept up with each step. -/
theorem Serves.moves {b b' : Board} {entries : List (Step × Answer × Bool)}
    {e : Step × Answer × Bool} (h : Serves b entries) (hmoves : Moves b b' e) :
    Serves b' (entries ++ [e]) := by
  have hedition : b.edition ≤ b'.edition := by
    by_cases hposts : Posts e
    · exact (hmoves.posted hposts).symm ▸ Nat.le_succ _
    · exact (hmoves.unposted hposts).1.ge
  -- a receiver that looks sees the edition shown, and no new one is posted meanwhile
  have hlooked : ∀ {index seen : ℕ}, Looks index e → b'.receivers[index]? = some seen →
      seen = b'.edition := by
    intro index seen hlooks hseen
    rw [hmoves.looked index hlooks] at hseen
    rw [(hmoves.unposted fun hposts => not_looks_of_mayPost hposts.1 index hlooks).1]
    exact (Option.some.inj hseen).symm
  refine ⟨fun index => ?_, fun {index seen} hseen => ?_, fun {index seen} hseen => ?_⟩
  · rw [exists_joins_concat, ← h.joined index]
    by_cases hlooks : Looks index e
    · rw [hmoves.looked index hlooks]
      exact iff_of_true rfl (hmoves.joined index hlooks).symm
    · rw [hmoves.unlooked index hlooks, or_iff_left fun hjoins => hlooks (Joins.looks hjoins)]
  · by_cases hlooks : Looks index e
    · exact (hlooked hlooks hseen).le
    · rw [hmoves.unlooked index hlooks] at hseen
      exact (h.seen_le hseen).trans hedition
  · rw [hasNews_concat]
    by_cases hlooks : Looks index e
    · simp [hlooks, hlooked hlooks hseen]
    · rw [hmoves.unlooked index hlooks] at hseen
      rw [and_iff_right hlooks]
      by_cases hposts : Posts e
      · have hle := h.seen_le hseen
        have hbehind : seen ≠ b'.edition := by
          rw [hmoves.posted hposts]
          omega
        obtain ⟨u, hu, hjoins⟩ := (h.joined index).1 (by rw [hseen]; rfl)
        exact iff_of_true hbehind (.inl ⟨hposts, u, hu, hjoins.looks⟩)
      · rw [(hmoves.unposted hposts).1, h.hasNews hseen]
        simp [hposts]

/-! ### What steps do to receivers -/

section Stepping

variable {s : Session} {b : Board}

/-- An entry that neither posts nor lets a receiver look moves nothing. -/
theorem moves_of_not {e : Step × Answer × Bool} (hposts : ¬ Posts e) (hlooks : ∀ index, ¬ Looks index e)
    {b' : Board} (hreceivers : b'.receivers = b.receivers) (hedition : b'.edition = b.edition)
    (hcurrent : b'.current = b.current) (hopen : e.1 ≠ .close → b'.isOpen = b.isOpen) :
    Moves b b' e :=
  ⟨fun h => absurd h hposts, fun _ => ⟨hedition, hcurrent⟩, hopen,
    fun index h => absurd h (hlooks index), fun index _ => by rw [hreceivers],
    fun index h => absurd h (hlooks index)⟩

theorem moves_self {e : Step × Answer × Bool} (hposts : ¬ Posts e)
    (hlooks : ∀ index, ¬ Looks index e) : Moves b b e :=
  moves_of_not hposts hlooks rfl rfl rfl fun _ => rfl

theorem moves_onBoard_postResult (hboard : s.board = some b) {t : Step} (ht : t.MayPost)
    (read : Board → Except LoadFault Settings) (switch : Bool) :
    ∃ b', (s.onBoard fun b => s.postResult b (read b)).2.board = some b' ∧
      Moves b b' (t, (s.onBoard fun b => s.postResult b (read b)).1, switch) := by
  have hlooks : ∀ answer index, ¬ Looks index (t, answer, switch) :=
    fun answer index => not_looks_of_mayPost ht index
  refine onBoard_cases s (P := fun r => ∃ b', r.2.board = some b' ∧ Moves b b' (t, r.1, switch))
    ⟨b, hboard, moves_self (fun hposts => by cases hposts.2) (hlooks _)⟩ fun b' hb' _ => ?_
  obtain rfl := Option.some.inj (hboard.symm.trans hb')
  cases read b with
  | error fault => exact ⟨b, hboard, moves_self (fun hposts => by cases hposts.2) (hlooks _)⟩
  | ok settings =>
    exact ⟨_, rfl, fun _ => rfl, fun h => absurd ⟨ht, rfl⟩ h, fun _ => rfl,
      fun index h => absurd h (hlooks _ index), fun _ _ => rfl,
      fun index h => absurd h (hlooks _ index)⟩

theorem moves_subscribe (hboard : s.board = some b) (switch : Bool) :
    ∃ b', (s.step .subscribe).2.board = some b' ∧
      Moves b b' (.subscribe, (s.step .subscribe).1, switch) := by
  have hposts : ∀ answer, ¬ Posts (.subscribe, answer, switch) := by
    rintro answer ⟨⟨text, order, h⟩ | ⟨orders, h⟩, -⟩ <;> cases h
  have hlooks : ∀ {answer index}, Looks index (.subscribe, answer, switch) →
      answer = .index index := by
    rintro answer index (h | ⟨h, -⟩)
    · exact h.2
    · cases h
  refine onBoard_cases s
    (P := fun r => ∃ b', r.2.board = some b' ∧ Moves b b' (.subscribe, r.1, switch))
    ⟨b, hboard, moves_self (hposts _) fun index h => by cases hlooks h⟩ fun b' hb' _ => ?_
  obtain rfl := Option.some.inj (hboard.symm.trans hb')
  refine ⟨_, rfl, fun h => absurd h (hposts _), fun _ => ⟨rfl, rfl⟩, fun _ => rfl,
    fun index h => ?_, fun index h => ?_, fun index h => ?_⟩
  · obtain rfl := Answer.index.inj (hlooks h)
    exact List.getElem?_concat_length
  · have hindex : index ≠ b.receivers.length := fun hindex => h (.inl ⟨rfl, hindex ▸ rfl⟩)
    rcases Nat.lt_or_gt_of_ne hindex with hlt | hgt
    · exact List.getElem?_append_left hlt
    · have hlen : (b.receivers ++ [b.edition]).length ≤ index := by
        rw [List.length_append, List.length_singleton]
        exact hgt
      rw [List.getElem?_eq_none hgt.le, ← List.getElem?_eq_none hlen]
      rfl
  · exact .inl ⟨rfl, hlooks h⟩

/-- What a receiver that looks is told. -/
theorem step_receive_fst (hboard : s.board = some b) (index : ℕ) :
    (s.step (.receive index)).1 =
      match b.receivers[index]? with
      | none => .notApplicable
      | some seen => .received (if b.isOpen then some (seen != b.edition) else none) b.current := by
  rw [step, receive, hboard]
  dsimp only
  rw [Board.receive?]
  cases b.receivers[index]? <;> rfl

theorem moves_receive (hboard : s.board = some b) (index : ℕ) (switch : Bool) :
    ∃ b', (s.step (.receive index)).2.board = some b' ∧
      Moves b b' (.receive index, (s.step (.receive index)).1, switch) := by
  have hposts : ∀ answer, ¬ Posts (.receive index, answer, switch) := by
    rintro answer ⟨⟨text, order, h⟩ | ⟨orders, h⟩, -⟩ <;> cases h
  have hlooks : ∀ {answer other}, Looks other (.receive index, answer, switch) → index = other ∧
      ∃ changed settings, answer = .received changed settings := by
    rintro answer other (⟨h, -⟩ | ⟨h, hanswer⟩)
    · cases h
    · exact ⟨Step.receive.inj h, hanswer⟩
  rw [step, receive, hboard]
  dsimp only
  rw [Board.receive?]
  cases hseen : b.receivers[index]? with
  | none =>
    refine ⟨b, hboard, moves_self (hposts _) fun other h => ?_⟩
    obtain ⟨-, changed, settings, hanswer⟩ := hlooks h
    cases hanswer
  | some seen =>
    have hlt : index < b.receivers.length := (List.getElem?_eq_some_iff.1 hseen).1
    refine ⟨_, rfl, fun h => absurd h (hposts _), fun _ => ⟨rfl, rfl⟩, fun _ => rfl,
      fun other h => ?_, fun other h => ?_, fun other h => ?_⟩
    · obtain ⟨rfl, -⟩ := hlooks h
      exact List.getElem?_set_self hlt
    · have hother : index ≠ other := fun hother => h (.inr ⟨hother ▸ rfl, _, _, rfl⟩)
      exact List.getElem?_set_ne hother
    · obtain ⟨rfl, -⟩ := hlooks h
      exact .inr (by rw [hseen]; rfl)

/-- Whether a step can post settings, add a receiver or let one look. -/
def Step.isForReceivers : Step → Bool
  | .publish _ _ | .reload _ | .subscribe | .receive _ => true
  | _ => false

theorem exists_moves_step_of_isForReceivers_eq_false (hboard : s.board = some b) {t : Step}
    (ht : t.isForReceivers = false) (switch : Bool) :
    ∃ b', (s.step t).2.board = some b' ∧ Moves b b' (t, (s.step t).1, switch) := by
  have hposts : ∀ answer, ¬ Posts (t, answer, switch) := by
    rintro answer ⟨⟨text, order, rfl⟩ | ⟨orders, rfl⟩, -⟩ <;> cases ht
  have hlooks : ∀ answer index, ¬ Looks index (t, answer, switch) := by
    rintro answer index (⟨rfl, -⟩ | ⟨rfl, -⟩) <;> cases ht
  have hself : ∀ answer, Moves b b (t, answer, switch) := fun answer =>
    moves_self (hposts answer) (hlooks answer)
  cases hstore : t.isAtStore with
  | true =>
    obtain ⟨store, hstep⟩ := exists_withStore_step s hstore
    rw [hstep]
    exact ⟨b, hboard, hself _⟩
  | false =>
    cases t with
    | current =>
      exact ⟨b, onBoard_cases s (P := fun r => r.2.board = some b) hboard fun _ _ _ => hboard, hself _⟩
    | follow =>
      refine onBoard_cases s (P := fun r => ∃ b', r.2.board = some b' ∧ Moves b b' (.follow, r.1, switch))
        ⟨b, hboard, hself _⟩ fun b' hb' _ => ?_
      obtain rfl := Option.some.inj (hboard.symm.trans hb')
      exact ⟨_, rfl, moves_of_not (hposts _) (hlooks _) rfl rfl rfl fun _ => rfl⟩
    | settle =>
      exact ⟨_, (letFollowers_eq hboard Board.settle).2,
        moves_of_not (hposts _) (hlooks _) rfl rfl rfl fun _ => rfl⟩
    | close =>
      exact ⟨_, (letFollowers_eq hboard Board.close).2,
        moves_of_not (hposts _) (hlooks _) rfl rfl rfl fun h => absurd rfl h⟩
    | enforced => exact ⟨b, hboard, hself _⟩
    | setEnforced value => exact ⟨b, hboard, hself _⟩
    | writeFile path bytes => exact ⟨b, hboard, hself _⟩
    | makeDirectory path => exact ⟨b, hboard, hself _⟩
    | removePath path => exact ⟨b, hboard, hself _⟩
    | setVariable name value => cases value <;> exact ⟨b, hboard, hself _⟩
    | publish text order => cases ht
    | reload orders => cases ht
    | subscribe => cases ht
    | receive index => cases ht
    | _ => cases hstore

/-- What a step does to a board as its receivers see it. -/
theorem exists_moves_step (hboard : s.board = some b) (t : Step) (switch : Bool) :
    ∃ b', (s.step t).2.board = some b' ∧ Moves b b' (t, (s.step t).1, switch) := by
  cases ht : t.isForReceivers with
  | false => exact exists_moves_step_of_isForReceivers_eq_false hboard ht switch
  | true =>
    cases t with
    | publish text order =>
      exact moves_onBoard_postResult hboard (.inl ⟨text, order, rfl⟩) _ switch
    | reload orders => exact moves_onBoard_postResult hboard (.inr ⟨orders, rfl⟩) _ switch
    | subscribe => exact moves_subscribe hboard switch
    | receive index => exact moves_receive hboard index switch
    | _ => cases ht

/-- What the receivers have seen after some steps. -/
theorem exists_serves_after (hboard : s.board = some b) (hserves : Serves b []) (steps : List Step) :
    ∃ b', (s.after steps).board = some b' ∧ Serves b' (s.transcript steps) := by
  induction steps using after_induction (s := s) with
  | start => exact ⟨b, hboard, hserves⟩
  | step steps t ih =>
    obtain ⟨b', hb', hserves⟩ := ih
    obtain ⟨next, hnext, hmoves⟩ := exists_moves_step hb' t (s.after (steps ++ [t])).guard.enforced
    rw [transcript_concat]
    exact ⟨next, hnext, hserves.moves hmoves⟩

theorem event?_eq_closed_iff (hboard : s.board = some b) (t : Step) :
    s.event? t = some .closed ↔ t = .close := by
  have hposted : ∀ {read : Board → Except LoadFault Settings},
      s.openBoard?.bind (fun b => (read b).toOption.map Event.posted) ≠ some .closed := by
    intro read he
    obtain ⟨-, settings, -, hposted⟩ := posted_of_event? hboard he
    cases hposted
  cases t with
  | publish text order => exact iff_of_false hposted fun h => by cases h
  | reload orders => exact iff_of_false hposted fun h => by cases h
  | _ => simp [event?, hboard]

/-- A board is closed by the step that closes it and by no other. -/
theorem closed_mem_history_iff (hboard : s.board = some b) (steps : List Step) :
    .closed ∈ s.history steps ↔ .close ∈ steps := by
  induction steps generalizing s b with
  | nil => simp [history]
  | cons t steps ih =>
    obtain ⟨next, hnext, -⟩ := exists_moves_step hboard t true
    rw [history, List.mem_append, Option.mem_toList, event?_eq_closed_iff hboard, ih hnext,
      List.mem_cons, eq_comm]

end Stepping

variable {files : FileTree} {environment : Environment} {source : StoreSource} {enforced : Bool}
  {board : BoardSource} {s : Session}

/-- The board of a session shows the settings posted last, is open until it is closed, and has served its
    receivers. -/
theorem exists_board_after (hstart : start files environment source enforced board = .ok s)
    {b : Board} (hboard : s.board = some b) (steps : List Step) :
    ∃ b', (s.after steps).board = some b' ∧ b'.current = newest b.current (s.history steps) ∧
      (b'.isOpen = true ↔ .close ∉ steps) ∧ Serves b' (s.transcript steps) := by
  obtain ⟨document, hfresh⟩ := exists_fresh_of_start hstart hboard
  have htells : b.Tells s.guard.enforced b.current [] := by
    rw [hfresh]
    exact Board.tells_fresh s.guard.enforced b.current document
  have hserves : Serves b [] := by
    rw [hfresh]
    exact serves_fresh b.current document
  obtain ⟨b', hb', htells⟩ := exists_tells_after hboard htells steps
  obtain ⟨b'', hb'', hserves⟩ := exists_serves_after hboard hserves steps
  obtain rfl := Option.some.inj (hb'.symm.trans hb'')
  refine ⟨b', hb', htells.current, ?_, hserves⟩
  rw [htells.isOpen, closed_mem_history_iff hboard]

/-- What a receiver is told that was added. -/
theorem step_receive_of_joined {b : Board} (hboard : s.board = some b)
    {entries : List (Step × Answer × Bool)} (hserves : Serves b entries) {index : ℕ}
    (hjoined : ∃ e ∈ entries, Joins index e) :
    ∃ changed, (changed = true ↔ HasNews index entries) ∧
      (s.step (.receive index)).1 = .received (if b.isOpen then some changed else none) b.current := by
  obtain ⟨seen, hseen⟩ := Option.isSome_iff_exists.1 ((hserves.joined index).2 hjoined)
  refine ⟨seen != b.edition, ?_, ?_⟩
  · rw [bne_iff_ne, hserves.hasNews hseen]
  · rw [step_receive_fst hboard, hseen]

theorem step_receive_of_not_joined {b : Board} (hboard : s.board = some b)
    {entries : List (Step × Answer × Bool)} (hserves : Serves b entries) {index : ℕ}
    (hjoined : ¬ ∃ e ∈ entries, Joins index e) :
    (s.step (.receive index)).1 = .notApplicable := by
  have hnone : b.receivers[index]? = none := by
    rw [← hserves.joined index, Bool.not_eq_true, Option.isSome_eq_false_iff] at hjoined
    exact Option.isNone_iff_eq_none.1 hjoined
  rw [step_receive_fst hboard, hnone]

/-- At every point of a session with a board, a receiver that was added is shown the settings posted last,
    which are those that the board shows, or the initial ones. While the board is open it is told that
    there is news just when something was posted since it last looked, or was added; once the board is
    closed, that it is closed. Steps that neither post nor let this receiver look do not change what it
    is told, nor do posts that fail, unless they close the board. -/
theorem receive_tells_news (hstart : start files environment source enforced board = .ok s)
    {b : Board} (hboard : s.board = some b) (steps : List Step) (index : ℕ) :
    let t := s.after steps
    let shown := newest b.current (s.history steps)
    ((∃ e ∈ s.transcript steps, Joins index e) →
        (.close ∉ steps →
          (t.step .current).1 = .settings shown ∧
          ∃ changed, (t.step (.receive index)).1 = .received (some changed) shown ∧
            (changed = true ↔ HasNews index (s.transcript steps))) ∧
        (.close ∈ steps → (t.step (.receive index)).1 = .received none shown)) ∧
      ((¬ ∃ e ∈ s.transcript steps, Joins index e) →
        (t.step (.receive index)).1 = .notApplicable) ∧
      ∀ other switch, other ≠ .close → ¬ Posts (other, (t.step other).1, switch) →
        ¬ Looks index (other, (t.step other).1, switch) →
        ((t.step other).2.step (.receive index)).1 = (t.step (.receive index)).1 := by
  intro t shown
  obtain ⟨b', hb', hcurrent, hopen, hserves⟩ := exists_board_after hstart hboard steps
  refine ⟨fun hjoined => ?_, fun hjoined => ?_, fun other switch hother hposts hlooks => ?_⟩
  · obtain ⟨changed, hchanged, hanswer⟩ := step_receive_of_joined hb' hserves hjoined
    rw [hcurrent] at hanswer
    refine ⟨fun hclose => ⟨?_, changed, ?_, hchanged⟩, fun hclose => ?_⟩
    · rw [step, onBoard_of_isOpen hb' (hopen.2 hclose), hcurrent]
    · rw [hanswer, if_pos (hopen.2 hclose)]
    · rw [hanswer, if_neg fun h => hopen.1 h hclose]
  · exact step_receive_of_not_joined hb' hserves hjoined
  · obtain ⟨next, hnext, hmoves⟩ := exists_moves_step hb' other switch
    obtain ⟨hedition, hcurrent⟩ := hmoves.unposted hposts
    rw [step_receive_fst hnext, step_receive_fst hb', hmoves.unlooked index hlooks, hedition, hcurrent,
      hmoves.unclosed hother]

/-- A post of equal settings is news, but not for the receiver that has looked since, and a post that
    fails is none. -/
theorem receive_tells_news_equal :
    let settings : Settings := ⟨false, "info", .pretty⟩
    ∃ s, start .empty .empty .none false (.text "") = .ok s ∧
      let t := s.after [.subscribe, .subscribe, .publish "", .receive 1, .publish "["]
      (t.step (.receive 0)).1 = .received (some true) settings ∧
        (t.step (.receive 1)).1 = .received (some false) settings := by
  intro settings
  let steps : List Step := [.subscribe, .subscribe, .publish "", .receive 1, .publish "["]
  let s : Session := ⟨⟨false, none⟩, some (.fresh settings none), .empty, .empty⟩
  have hstart : start .empty .empty .none false (.text "") = .ok s := rfl
  -- the entries up to the look of the second receiver, and the failed post after it
  have htranscript : s.transcript steps =
      [(.subscribe, .index 0, false), (.subscribe, .index 1, false), (.publish "", .done, false)] ++
        [(.receive 1, .received (some true) settings, false)] ++
        [(.publish "[", .loadFault (.malformed "the settings are not TOML"), false)] := rfl
  have hnews : HasNews 0 (s.transcript steps) := by
    refine ⟨[], _, _, htranscript, .inl ⟨rfl, rfl⟩, ?_, (.publish "", .done, false), ?_,
      .inl ⟨_, _, rfl⟩, rfl⟩
    · simp [Looks, Joins]
    · simp
  have hnone : ¬ HasNews 1 (s.transcript steps) := by
    rw [htranscript, hasNews_concat, hasNews_concat]
    simp [Looks, Posts]
  have hjoined : (∃ e ∈ s.transcript steps, Joins 0 e) ∧ ∃ e ∈ s.transcript steps, Joins 1 e := by
    simp [htranscript, Joins]
  have hopen : .close ∉ steps := by simp [steps]
  obtain ⟨-, first, hfirst, hnews'⟩ :=
    ((receive_tells_news hstart rfl steps 0).1 hjoined.1).1 hopen
  obtain ⟨-, second, hsecond, hnone'⟩ :=
    ((receive_tells_news hstart rfl steps 1).1 hjoined.2).1 hopen
  rw [hnews'.2 hnews] at hfirst
  rw [Bool.eq_false_iff.2 fun h => hnone (hnone'.1 h)] at hsecond
  exact ⟨s, hstart, hfirst, hsecond⟩

end Session

end PathGuard
