import PathGuard.Proofs.Session.Omission
import PathGuard.Proofs.Session.Switch
import PathGuard.Proofs.Settings.Source

/-!
# Loading settings again

A board remembers which document was named when its settings were first loaded, and no more than that.
So settings that are loaded again come from a named document or from nowhere, but if none was named they
come from the default place that is the first one there by now.

## Main results

- `Session.exists_source_after`: a board goes on to name its document
- `Session.reload_source`: where the settings come from when they are loaded again
-/

namespace PathGuard

theorem Board.source_take (switch : Bool) (b : Board) (e : Event) :
    (b.take switch e).2.source = b.source := by
  cases e <;> rfl

namespace Session

variable {files : FileTree} {environment : Environment} {store : StoreSource} {enforced : Bool}
  {path : Option String} {initial : Settings.KeyOrders} {s : Session} {b : Board}

/-- A board goes on to name the document that it was made with. -/
theorem exists_source_after (hboard : s.board = some b) (steps : List Step) :
    ∃ b', (s.after steps).board = some b' ∧ b'.source = b.source := by
  induction steps using after_induction (s := s) with
  | start => exact ⟨b, hboard, rfl⟩
  | step steps t ih =>
    obtain ⟨b', hb', hsource⟩ := ih
    cases he : (s.after steps).event? t with
    | none =>
      obtain ⟨-, receivers, hnext⟩ := step_of_event?_eq_none hb' he
      exact ⟨_, hnext, hsource⟩
    | some e =>
      obtain ⟨-, -, hnext⟩ := step_of_event? hb' he
      exact ⟨_, hnext, (Board.source_take _ b' e).trans hsource⟩

/-- A session that loads its settings has a fresh board that names their document. -/
theorem exists_fresh_of_start_load
    (hstart : start files environment store enforced (.load path initial) = .ok s) :
    ∃ settings, s.board = some (.fresh settings path) := by
  obtain ⟨-, -, -, hboard⟩ := start_eq_ok hstart
  obtain ⟨settings, -, hfresh⟩ := exists_of_map_eq_ok hboard
  exact ⟨settings, hfresh⟩

theorem step_reload (hboard : s.board = some b) (hopen : b.isOpen = true)
    (orders : Settings.KeyOrders) :
    s.step (.reload orders) = s.postResult b (Settings.load (s.surroundings orders) b.source) :=
  onBoard_of_isOpen hboard hopen _

/-- Settings were loaded from a place, and are loaded again while the board is open. If the place is the
    first one there still, they come from the file at that place, whatever other files there are. If the
    document was named they come from the document at the place, and a place that is gone is a fault. If
    it was not named, they come from the place just when no default place before it is there by now, and
    else from the first one there, or from the environment alone. A fault leaves everything as it was: the
    settings shown, the receivers, the followers and the switch. All of this holds in whatever order the
    keys of the settings come, at first and again. -/
theorem reload_source (hstart : start files environment store enforced (.load path initial) = .ok s)
    {place : String} (hplace : Settings.source (.ofTree files environment) path = .ok (some place))
    {steps : List Step} (hopen : .closed ∉ s.history steps) (orders : Settings.KeyOrders) :
    let t := s.after steps
    let now := t.surroundings orders
    ∃ b, t.board = some b ∧
      (∀ bytes, Settings.source now path = .ok (some place) → now.file? place = some bytes →
        t.step (.reload orders) = t.postResult b (Settings.ofBytes bytes t.environment orders)) ∧
      (path = some place ∧
          (Settings.source now path = .ok (some place) ↔ now.hasPath place = true) ∧
          (now.hasPath place = true →
            t.step (.reload orders) = t.postResult b (Settings.ofPlace now (some place))) ∧
          (now.hasPath place = false →
            t.step (.reload orders) = (.loadFault (.notFound .settings place), t)) ∨
        path = none ∧
          (Settings.source now path = .ok (some place) ↔
            ∃ before after, Settings.defaultPlaces t.environment = before ++ place :: after ∧
              now.hasPath place = true ∧ ∀ other ∈ before, now.hasPath other = false) ∧
          t.step (.reload orders) = t.postResult b
            (Settings.ofPlace now ((Settings.defaultPlaces t.environment).find? now.hasPath))) ∧
      ∀ fault, (t.step (.reload orders)).1 = .loadFault fault →
        (t.step (.reload orders)).2 = t := by
  intro t now
  obtain ⟨settings, hboard⟩ := exists_fresh_of_start_load hstart
  obtain ⟨b, hb, htells⟩ := exists_tells_after hboard (Board.tells_fresh _ settings path) steps
  obtain ⟨b', hb', hsource⟩ := exists_source_after hboard steps
  obtain rfl := Option.some.inj (hb.symm.trans hb')
  -- the document is the one named at the start, so all that is left is what loading it gives now
  have hreload : t.step (.reload orders) = t.postResult b (Settings.load now path) := by
    rw [step_reload hb (htells.isOpen.2 hopen), hsource]
    rfl
  refine ⟨b, hb, fun bytes hsame hfile => ?_, ?_, fun fault hfault => ?_⟩
  · rw [hreload, Settings.load_of_source hsame, Settings.ofPlace_of_file? hfile]
    rfl
  · cases path with
    | some path =>
      obtain ⟨rfl, -⟩ := Settings.source_some_eq_ok_iff.1 hplace
      refine .inl ⟨rfl, ?_, fun hthere => ?_, fun hgone => ?_⟩
      · rw [Settings.source_some_eq_ok_iff, and_iff_right rfl]
      · rw [hreload, Settings.load_of_source (Settings.source_some_eq_ok_iff.2 ⟨rfl, hthere⟩)]
      · rw [hreload, Settings.load_of_not_hasPath hgone]
        rfl
    | none =>
      refine .inr ⟨rfl, Settings.source_none_eq_ok_iff, ?_⟩
      rw [hreload, Settings.load_of_source rfl]
      rfl
  · refine step_of_isFault t rfl ?_
    rw [hfault]
    rfl

theorem reload_source_removed :
    ∃ s, start (FileTree.empty.write "c.toml" []) .empty .none true (.load (some "c.toml")) = .ok s ∧
      let t := s.after [.follow, .removePath "c.toml"]
      t.step .reload = (.loadFault (.notFound .settings "c.toml"), t) := by
  let files := FileTree.empty.write "c.toml" []
  have hrun : (start files .empty .none true (.load (some "c.toml"))).toOption.map
      (fun s => ((s.after [.follow, .removePath "c.toml"]).surroundings .asWritten).hasPath "c.toml") =
        some false := by
    decide +kernel
  cases hstart : start files .empty .none true (.load (some "c.toml")) with
  | error fault =>
    rw [hstart] at hrun
    cases hrun
  | ok s =>
    rw [hstart] at hrun
    have hplace : Settings.source (.ofTree files .empty) (some "c.toml") = .ok (some "c.toml") := by
      decide +kernel
    have hopen : .closed ∉ s.history [.follow, .removePath "c.toml"] := by
      simp [history, event?]
    obtain ⟨b, -, -, ⟨-, -, -, hgone⟩ | ⟨hnone, -⟩, -⟩ :=
      reload_source hstart hplace hopen .asWritten
    · exact ⟨s, rfl, hgone (Option.some.inj hrun)⟩
    · cases hnone

/-- Loading settings again takes them from a place that was not there before, though the file that they
    were loaded from is still there as it was, and turns enforcement off. -/
theorem reload_source_of_other_place :
    let text := Utf8.encode "[experimental_features]\nenable_sub_repo_permissions = true"
    let files := FileTree.empty.write ".subrepo-authz.toml" text
    Settings.source (.ofTree files .empty) none = .ok (some ".subrepo-authz.toml") ∧
    ∃ s, start files .empty .none false (.load none) = .ok s ∧
      let t := s.after [.follow, .writeFile "subrepo-authz.toml" []]
      t.guard.enforced = true ∧
        (t.surroundings .asWritten).file? ".subrepo-authz.toml" = some text ∧
        (t.after [.reload, .settle]).guard.enforced = false := by
  intro text files
  refine ⟨by decide +kernel, ?_⟩
  have hrun : (start files .empty .none false (.load none)).toOption.map
      (fun s =>
        let t := s.after [.follow, .writeFile "subrepo-authz.toml" []]
        decide (t.guard.enforced = true ∧
          (t.surroundings .asWritten).file? ".subrepo-authz.toml" = some text ∧
          (t.after [.reload, .settle]).guard.enforced = false)) = some true := by
    decide +kernel
  cases hstart : start files .empty .none false (.load none) with
  | error fault =>
    rw [hstart] at hrun
    cases hrun
  | ok s =>
    rw [hstart] at hrun
    exact ⟨s, rfl, of_decide_eq_true (Option.some.inj hrun)⟩

end Session

end PathGuard
