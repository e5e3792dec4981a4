import PathGuard.Proofs.Session.Receivers
import PathGuard.Proofs.Settings.Source

/-!
# What is shown has been validated

Settings come onto a board when it is made, from a text or from a document, and with each post that
succeeds. Each of these ways ends with the demands on the level. So the settings that a board shows, to
whoever asks and at whatever point, are those that were loaded last with success, and their level is a
known one.

## Main definitions

- `Settings.IsValid`: the level is a known one
- `Session.loads`: what came of loading settings in the course of some steps

## Main results

- `Settings.isValid_of_ofText`, `Settings.isValid_of_load`: what is loaded is valid
- `getLast?_posted`, `Session.filterMap_loads`: the newest settings are those loaded last
- `Session.shown_isValid`: what a session shows
-/

namespace PathGuard

namespace Settings

/-- The level is given and is a known one, in whatever case its ASCII letters are. -/
def IsValid (c : Settings) : Prop :=
  c.level ≠ "" ∧ Ascii.lowered c.level ∈ ["trace", "debug", "info", "warn", "error"]

variable {c : Settings}

theorem isValid_of_validate {given : Settings} (h : given.validate = .ok c) : c.IsValid := by
  unfold validate at h
  split at h
  · cases h
  · next hlevel =>
    split at h
    · next hknown =>
      obtain rfl := Except.ok.inj h
      exact ⟨fun hempty => hlevel (String.isEmpty_iff.2 hempty), List.contains_iff_mem.1 hknown⟩
    · cases h

theorem isValid_of_ofLayers {layers : List (List (String × Tree))} (h : ofLayers layers = .ok c) :
    c.IsValid := by
  unfold ofLayers at h
  split at h
  · cases h
  · exact isValid_of_validate h

theorem isValid_of_ofText {text : String} {order : KeyOrder} (h : ofText text order = .ok c) :
    c.IsValid := by
  obtain ⟨layer, -, hlayers⟩ := Session.exists_of_bind_eq_ok h
  exact isValid_of_ofLayers hlayers

theorem isValid_of_load {s : Surroundings} {path : Option String} (h : load s path = .ok c) :
    c.IsValid := by
  cases hsource : source s path with
  | error fault =>
    rw [load, hsource] at h
    cases h
  | ok found =>
    rw [load_of_source hsource] at h
    cases found with
    | none => exact isValid_of_ofLayers h
    | some place =>
      obtain ⟨layer, -, hlayers⟩ := Session.exists_of_bind_eq_ok h
      exact isValid_of_ofLayers hlayers

end Settings

/-- The settings that an event posts. -/
def Event.settings? : Event → Option Settings
  | .posted settings => some settings
  | _ => none

theorem getLast?_posted (initial : Settings) (history : List Event) :
    (initial :: history.filterMap Event.settings?).getLast? = some (newest initial history) := by
  induction history using List.reverseRecOn with
  | nil => rfl
  | append_singleton history e ih =>
    rw [newest_concat, List.filterMap_append, ← List.cons_append]
    cases e with
    | posted settings => exact List.getLast?_concat
    | _ => exact (congrArg List.getLast? (List.append_nil _)).trans ih

namespace Session

/-- What comes of loading the settings of a board that is made. -/
def BoardSource.load? (s : Surroundings) : BoardSource → Option (Except LoadFault Settings)
  | none => .none
  | text document order => some (Settings.ofText document order)
  | load path orders => some (Settings.load { s with orders } path)

/-- What comes of loading settings with a step, if it is one that loads any. -/
def load? (s : Session) : Step → Option (Except LoadFault Settings)
  | .publish text order => s.openBoard?.map fun _ => Settings.ofText text order
  | .reload orders => s.openBoard?.map fun b => Settings.load (s.surroundings orders) b.source
  | _ => none

/-- What came of loading settings in the course of some steps, each time. -/
def loads (s : Session) : List Step → List (Except LoadFault Settings)
  | [] => []
  | t :: steps => (s.load? t).toList ++ (s.step t).2.loads steps

variable {s : Session}

/-- A step posts just the settings that it loads with success. -/
theorem bind_settings?_event? (s : Session) (t : Step) :
    (s.event? t).bind Event.settings? = (s.load? t).bind Except.toOption := by
  have hposted : ∀ read : Board → Except LoadFault Settings,
      (s.openBoard?.bind fun b => (read b).toOption.map Event.posted).bind Event.settings? =
        (s.openBoard?.map read).bind Except.toOption := by
    intro read
    cases s.openBoard? with
    | none => rfl
    | some b => cases hread : read b <;> simp [hread, Except.toOption, Event.settings?]
  cases t with
  | publish text order => exact hposted fun _ => Settings.ofText text order
  | reload orders => exact hposted fun b => Settings.load (s.surroundings orders) b.source
  | follow => cases h : s.openBoard? <;> simp [event?, load?, h, Event.settings?]
  | settle => cases h : s.board <;> simp [event?, load?, h, Event.settings?]
  | close => cases h : s.board <;> simp [event?, load?, h, Event.settings?]
  | _ => rfl

theorem filterMap_loads (s : Session) (steps : List Step) :
    (s.loads steps).filterMap Except.toOption = (s.history steps).filterMap Event.settings? := by
  induction steps generalizing s with
  | nil => rfl
  | cons t steps ih =>
    have htoList : ∀ {α β : Type} (x : Option α) (f : α → Option β),
        x.toList.filterMap f = (x.bind f).toList := by
      intro α β x f
      cases x with
      | none => rfl
      | some a => cases h : f a <;> simp [h]
    rw [loads, history, List.filterMap_append, List.filterMap_append, ih, htoList, htoList,
      bind_settings?_event?]

theorem isValid_of_load? {t : Step} {settings : Settings} (h : s.load? t = some (.ok settings)) :
    settings.IsValid := by
  cases t with
  | publish text order =>
    obtain ⟨b, -, hread⟩ := Option.map_eq_some_iff.1 h
    exact Settings.isValid_of_ofText hread
  | reload orders =>
    obtain ⟨b, -, hread⟩ := Option.map_eq_some_iff.1 h
    exact Settings.isValid_of_load hread
  | _ => cases h

theorem isValid_of_mem_loads {steps : List Step} {settings : Settings}
    (h : .ok settings ∈ s.loads steps) : settings.IsValid := by
  induction steps generalizing s with
  | nil => cases h
  | cons t steps ih =>
    rcases List.mem_append.1 h with h | h
    · exact isValid_of_load? (Option.mem_toList.1 h)
    · exact ih h

variable {files : FileTree} {environment : Environment} {source : StoreSource} {enforced : Bool}
  {board : BoardSource} {b : Board}

/-- The first settings of a board are those that it was made with. -/
theorem load?_of_start (hstart : start files environment source enforced board = .ok s)
    (hboard : s.board = some b) :
    board.load? (.ofTree files environment) = some (.ok b.current) := by
  obtain ⟨-, -, -, hb⟩ := start_eq_ok hstart
  rw [hboard] at hb
  cases board with
  | none => cases hb
  | text document order =>
    obtain ⟨settings, hread, hfresh⟩ := exists_of_map_eq_ok hb
    obtain rfl := Option.some.inj hfresh
    exact congrArg some hread
  | load path orders =>
    obtain ⟨settings, hread, hfresh⟩ := exists_of_map_eq_ok hb
    obtain rfl := Option.some.inj hfresh
    exact congrArg some hread

theorem BoardSource.isValid_of_load? {s : Surroundings} {settings : Settings}
    (h : board.load? s = some (.ok settings)) : settings.IsValid := by
  cases board with
  | none => cases h
  | text document order => exact Settings.isValid_of_ofText (Option.some.inj h)
  | load path orders => exact Settings.isValid_of_load (Option.some.inj h)

/-- At every point of a session with a board there are settings that were loaded last with success, when
    the board was made or since, by whatever files, variables, texts and orders of keys. These are shown
    to whoever asks while the board is open, and to every receiver that was added, also later. Their level
    is a known one. -/
theorem shown_isValid (hstart : start files environment source enforced board = .ok s)
    (hboard : s.board = some b) (steps : List Step) :
    ∃ first settings, board.load? (.ofTree files environment) = some first ∧
      ((first :: s.loads steps).filterMap Except.toOption).getLast? = some settings ∧
      settings.IsValid ∧
      (.close ∉ steps → ((s.after steps).step .current).1 = .settings settings) ∧
      (.close ∈ steps → ((s.after steps).step .current).1 = .notApplicable) ∧
      ∀ index,
        ((∃ e ∈ s.transcript steps, Joins index e) → ∃ changed,
          ((s.after steps).step (.receive index)).1 = .received changed settings) ∧
        ((¬ ∃ e ∈ s.transcript steps, Joins index e) →
          ((s.after steps).step (.receive index)).1 = .notApplicable) := by
  obtain ⟨b', hb', hcurrent, hopen, hserves⟩ := exists_board_after hstart hboard steps
  have hfirst := load?_of_start hstart hboard
  have hlast : ((.ok b.current :: s.loads steps).filterMap Except.toOption).getLast? =
      some b'.current := by
    rw [hcurrent, ← getLast?_posted, ← filterMap_loads]
    rfl
  -- what was loaded last is one of the things that were loaded
  have hvalid : b'.current.IsValid := by
    obtain ⟨outcome, hmem, houtcome⟩ := List.mem_filterMap.1 (List.mem_of_getLast? hlast)
    cases outcome with
    | error fault => cases houtcome
    | ok settings =>
      obtain rfl := Option.some.inj houtcome
      rcases List.mem_cons.1 hmem with hmem | hmem
      · obtain hcurrent := Except.ok.inj hmem
        rw [hcurrent]
        exact BoardSource.isValid_of_load? hfirst
      · exact isValid_of_mem_loads hmem
  refine ⟨.ok b.current, b'.current, hfirst, hlast, hvalid, fun hclose => ?_, fun hclose => ?_,
    fun index => ⟨fun hjoined => ?_, fun hjoined => ?_⟩⟩
  · rw [step, onBoard_of_isOpen hb' (hopen.2 hclose)]
  · have hshut : b'.isOpen = false := Bool.eq_false_iff.2 fun h => hopen.1 h hclose
    rw [step, onBoard_of_not_isOpen hb' hshut]
  · obtain ⟨changed, -, hanswer⟩ := step_receive_of_joined hb' hserves hjoined
    exact ⟨_, hanswer⟩
  · exact step_receive_of_not_joined hb' hserves hjoined

/-- A document with an unknown level does not get onto the board, and what was there stays. -/
theorem shown_isValid_refused :
    let files := FileTree.empty.write "c.toml" (Utf8.encode "logging.level = 'Warn'")
    let loud := Utf8.encode "logging.level = 'loud'"
    ∃ s, start files .empty .none true (.load (some "c.toml")) = .ok s ∧
      let t := s.after [.subscribe, .writeFile "c.toml" loud, .reload]
      (t.step .current).1 = .settings ⟨false, "Warn", .pretty⟩ ∧
        (⟨false, "Warn", .pretty⟩ : Settings).IsValid := by
  intro files loud
  let steps : List Step := [.subscribe, .writeFile "c.toml" loud, .reload]
  have hfirst : (BoardSource.load? (.ofTree files .empty) (.load (some "c.toml"))).bind
      Except.toOption = some ⟨false, "Warn", .pretty⟩ := by
    decide +kernel
  have hrun : (start files .empty .none true (.load (some "c.toml"))).toOption.map
      (fun s => (s.board.isSome, (s.loads steps).map Except.toOption)) = some (true, [none]) := by
    decide +kernel
  cases hstart : start files .empty .none true (.load (some "c.toml")) with
  | error fault =>
    rw [hstart] at hrun
    cases hrun
  | ok s =>
    rw [hstart] at hrun
    obtain ⟨hsome, hloads⟩ := Prod.mk.inj (Option.some.inj hrun)
    obtain ⟨b, hboard⟩ := Option.isSome_iff_exists.1 hsome
    have hopen : .close ∉ steps := by simp [steps]
    obtain ⟨first, settings, hload, hlast, hvalid, hcurrent, -⟩ := shown_isValid hstart hboard steps
    -- only the first load succeeds
    have hsettings : settings = ⟨false, "Warn", .pretty⟩ := by
      rw [hload, Option.bind_some] at hfirst
      have hnone : (s.loads steps).filterMap Except.toOption = [] := by
        rw [List.filterMap_eq_nil_iff, ← List.forall_mem_map (P := (· = none)), hloads]
        simp
      rw [List.filterMap_cons, hfirst, hnone] at hlast
      exact (Option.some.inj hlast).symm
    rw [hsettings] at hcurrent hvalid
    exact ⟨s, rfl, hcurrent hopen, hvalid⟩

end Session

end PathGuard
