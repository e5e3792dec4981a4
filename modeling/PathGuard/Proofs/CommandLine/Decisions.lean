import PathGuard.Proofs.CommandLine.Words
import PathGuard.Proofs.Guard.Readable
import PathGuard.Proofs.Json.Layout

/-!
# What a command line reports

A command line that is read loads settings and rules and has its paths checked in order. It reports
either what the check of each path answers, or the first fault and nothing else.

## Main definitions

- `Prints`: the outputs that show decisions
- `Command.guard`: the guard that a command has its paths checked by
- `Reports`: the outcomes of a command

## Main results

- `answer_of_decide`, `answer_of_decide_error`: deciding on paths is checking each of them
- `prints_layOut`: both layouts show the decisions
- `reports_of_parse`: the outcomes of a command line that is read
- `run_of_parse`: a command line that is read reports what checks of its paths answer
-/

namespace PathGuard.CommandLine

/-! ### Decisions -/

section Decide

variable {guard : Guard} {actor : Actor} {repo : RepoName}

theorem decide_goesThrough (actor : Actor) (repo : RepoName) :
    Guard.GoesThrough actor repo (decide actor repo)
      (fun path permission later => ⟨path, permission⟩ :: later) [] :=
  ⟨rfl, fun _ _ => rfl⟩

/-- With a standing, every path is decided on as its own check decides, in order. -/
theorem answer_decide_of_ok {standing : Standing} (h : guard.standingFor actor repo = .ok standing)
    (paths : List String) :
    (decide actor repo paths).answer guard =
      .ok (paths.map fun path => ⟨path, standing.permission repo path⟩) := by
  rw [Guard.Check.answer, (decide_goesThrough actor repo).run_of_ok h, List.map_eq_foldr]

theorem answer_decide_of_error {fault : CheckFault} (h : guard.standingFor actor repo = .error fault)
    (path : String) (paths : List String) :
    (decide actor repo (path :: paths)).answer guard = .error fault := by
  rw [Guard.Check.answer, (decide_goesThrough actor repo).run_of_error h]

/-- Decisions are the answers of the single checks, for each path one. -/
theorem answer_of_decide {paths : List String} {ds : List Decision}
    (h : (decide actor repo paths).answer guard = .ok ds) :
    ds.map Decision.path = paths ∧
      ∀ d ∈ ds, (Guard.checkActor actor repo d.path).answer guard = .ok d.permission := by
  cases hstanding : guard.standingFor actor repo with
  | ok standing =>
    rw [answer_decide_of_ok hstanding] at h
    obtain rfl := Except.ok.inj h
    refine ⟨?_, fun d hd => ?_⟩
    · rw [List.map_map]
      exact List.map_id paths
    · obtain ⟨path, -, rfl⟩ := List.mem_map.1 hd
      exact Guard.answer_checkActor_of_ok hstanding path
  | error fault =>
    cases paths with
    | nil =>
      obtain rfl := Except.ok.inj h
      exact ⟨rfl, by simp⟩
    | cons path later =>
      rw [answer_decide_of_error hstanding] at h
      cases h

/-- There are no decisions if the check of the first path fails. -/
theorem answer_of_decide_error {paths : List String} {fault : CheckFault}
    (h : (decide actor repo paths).answer guard = .error fault) :
    ∃ path later, paths = path :: later ∧
      (Guard.checkActor actor repo path).answer guard = .error fault := by
  cases hstanding : guard.standingFor actor repo with
  | ok standing =>
    rw [answer_decide_of_ok hstanding] at h
    cases h
  | error fault' =>
    cases paths with
    | nil => cases h
    | cons path later =>
      rw [answer_decide_of_error hstanding] at h
      obtain rfl := Except.error.inj h
      exact ⟨path, later, rfl, Guard.answer_checkActor_of_error hstanding path⟩

end Decide

/-! ### Outputs -/

/-- What an output shows of a permission. -/
def permissionText (p : Permission) : String :=
  if p = .read then "read" else "none"

theorem name_eq_permissionText (p : Permission) : p.name = permissionText p := by
  cases p <;> rfl

/-- An output that shows decisions, one after the other: as a JSON document, which is an array of objects
    with a path and a permission each, or on lines, each with a permission, a tab and a path. -/
inductive Prints (ds : List Decision) (output : String) : Bool → Prop where
  | document (h : Json.DocumentWritten (.array (ds.map fun d =>
      .object [(.unicode "path", .string (.unicode d.path)),
        (.unicode "perms", .string (.unicode (permissionText d.permission)))])) output) :
      Prints ds output true
  | lines (h : output = String.join (ds.map fun d => permissionText d.permission ++ "\t" ++ d.path ++ "\n")) :
      Prints ds output false

namespace Decision

theorem toJson_eq (d : Decision) :
    d.toJson = .object [(.unicode "path", .string (.unicode d.path)),
      (.unicode "perms", .string (.unicode (permissionText d.permission)))] := by
  rw [toJson, name_eq_permissionText]
  rfl

theorem isLegible_toJson (d : Decision) : d.toJson.IsLegible := by
  refine .object fun member hmember => ?_
  simp only [List.mem_cons, List.not_mem_nil, or_false] at hmember
  rcases hmember with rfl | rfl
  · exact .string _
  · exact .string _

theorem isLegible_array (ds : List Decision) : (Json.array (ds.map toJson)).IsLegible := by
  refine .array fun item hitem => ?_
  obtain ⟨d, -, rfl⟩ := List.mem_map.1 hitem
  exact d.isLegible_toJson

theorem line_eq (d : Decision) :
    d.line = (permissionText d.permission ++ "\t" ++ d.path ++ "\n").toList := by
  simp [line, name_eq_permissionText]

theorem ofList_lines (ds : List Decision) :
    String.ofList (lines ds) =
      String.join (ds.map fun d => permissionText d.permission ++ "\t" ++ d.path ++ "\n") := by
  rw [← String.toList_inj, String.toList_ofList, String.toList_join, List.flatMap_map, lines]
  exact List.flatMap_congr fun d _ => d.line_eq

end Decision

theorem prints_layOut (json : Bool) (ds : List Decision) : Prints ds (layOut json ds) json := by
  cases json with
  | true =>
    have hend : Json.AreBlank ['\n'] := by simp [Json.AreBlank, Json.isBlank]
    refine .document ?_
    rw [← List.map_congr_left fun d _ => d.toJson_eq]
    exact Json.documentWritten_pretty (Decision.isLegible_array ds) 0 hend
  | false => exact .lines (Decision.ofList_lines ds)

/-! ### Outcomes -/

/-- The document of settings that is named: by an option, or else by a variable. -/
theorem document?_eq (general : General) (e : Environment) :
    general.document? e = general.config?.or (e.get? "SUBREPO_AUTHZ_CONFIG") := by
  rw [General.document?, configVariable]
  cases general.config? <;> rfl

/-- The guard that decides on the paths of a command. It enforces as the command says, or else as the
    settings do. -/
def Command.guard (c : Command) (settings : Settings) (l : Ledger) : Guard :=
  ⟨c.enforced?.getD settings.enforced, some (.ledger l)⟩

/-- What becomes of a command when settings are loaded from a document, if one is named. Faults of the
    settings come before faults of the rules, and these before faults of a check. -/
inductive Reports (s : Surroundings) (document? : Option String) (c : Command) : Outcome → Prop where
  | settings {fault : LoadFault} (hsettings : Settings.load s document? = .error fault) :
      Reports s document? c (.failure (.load fault))
  | rules {settings : Settings} {fault : LoadFault}
      (hsettings : Settings.load s document? = .ok settings)
      (hrules : Ledger.load s c.rules = .error fault) :
      Reports s document? c (.failure (.load fault))
  | check {settings : Settings} {l : Ledger} {path : String} {later : List String}
      {fault : CheckFault} (hsettings : Settings.load s document? = .ok settings)
      (hrules : Ledger.load s c.rules = .ok l) (hpaths : c.paths = path :: later)
      (hcheck : (Guard.checkActor c.actor c.repo path).answer (c.guard settings l) = .error fault) :
      Reports s document? c (.failure (.check fault))
  | decisions {settings : Settings} {l : Ledger} {ds : List Decision} {output : String}
      (hsettings : Settings.load s document? = .ok settings)
      (hrules : Ledger.load s c.rules = .ok l) (hpaths : ds.map Decision.path = c.paths)
      (hchecks : ∀ d ∈ ds,
        (Guard.checkActor c.actor c.repo d.path).answer (c.guard settings l) = .ok d.permission)
      (hprints : Prints ds output c.json) : Reports s document? c (.success output)

/-- Settings and rules are loaded, and every path has a check that succeeds. -/
def Succeeds (s : Surroundings) (document? : Option String) (c : Command) : Prop :=
  ∃ settings l, Settings.load s document? = .ok settings ∧ Ledger.load s c.rules = .ok l ∧
    ∀ path ∈ c.paths, ∃ permission,
      (Guard.checkActor c.actor c.repo path).answer (c.guard settings l) = .ok permission

section Reports

variable {s : Surroundings} {document? : Option String} {c : Command} {o : Outcome}

theorem Reports.status_eq_zero_iff (h : Reports s document? c o) :
    o.status = 0 ↔ Succeeds s document? c := by
  cases h with
  | settings hsettings => simp [Outcome.status, Succeeds, hsettings]
  | rules hsettings hrules => simp [Outcome.status, Succeeds, hrules]
  | check hsettings hrules hpaths hcheck =>
    refine ⟨fun hzero => absurd hzero Nat.one_ne_zero, ?_⟩
    rintro ⟨settings, l, hsettings', hrules', hchecks⟩
    obtain rfl := Except.ok.inj (hsettings.symm.trans hsettings')
    obtain rfl := Except.ok.inj (hrules.symm.trans hrules')
    obtain ⟨permission, hok⟩ := hchecks _ (hpaths ▸ List.mem_cons_self)
    rw [hcheck] at hok
    cases hok
  | decisions hsettings hrules hpaths hchecks =>
    refine ⟨fun _ => ⟨_, _, hsettings, hrules, fun path hpath => ?_⟩, fun _ => rfl⟩
    rw [← hpaths] at hpath
    obtain ⟨d, hd, rfl⟩ := List.mem_map.1 hpath
    exact ⟨d.permission, hchecks d hd⟩

theorem Reports.of_status_ne_zero (h : Reports s document? c o) (hstatus : o.status ≠ 0) :
    o.status = 1 ∧ o.output = "" := by
  cases h with
  | decisions => exact absurd rfl hstatus
  | _ => exact ⟨rfl, rfl⟩

/-- A command with decisions prints them, and a command without any fails. -/
theorem run_of_decisions {words : List String} {general : General}
    (hparse : parse words = .ok (general, c)) :
    (∀ ds, decisions s general c = .ok ds → run s words = .success (layOut c.json ds)) ∧
      ∀ cause, decisions s general c = .error cause → run s words = .failure cause := by
  refine ⟨fun ds h => ?_, fun cause h => ?_⟩ <;> simp only [run, hparse, h]

theorem decisions_of_load {settings : Settings} {l : Ledger} {general : General}
    (hsettings : Settings.load s (general.document? s.environment) = .ok settings)
    (hrules : Ledger.load s c.rules = .ok l) :
    decisions s general c =
      ((decide c.actor c.repo c.paths).answer (c.guard settings l)).mapError .check := by
  rw [decisions, hsettings, hrules]
  rfl

theorem reports_of_parse {words : List String} {general : General}
    (hparse : parse words = .ok (general, c)) (s : Surroundings) :
    Reports s (general.document? s.environment) c (run s words) := by
  obtain ⟨hsuccess, hfailure⟩ := run_of_decisions (s := s) hparse
  -- the run ends at the first fault, so there is a case for each thing that is done
  cases hsettings : Settings.load s (general.document? s.environment) with
  | error fault =>
    rw [hfailure (.load fault) (by rw [decisions, hsettings]; rfl)]
    exact .settings hsettings
  | ok settings =>
    cases hrules : Ledger.load s c.rules with
    | error fault =>
      rw [hfailure (.load fault) (by rw [decisions, hsettings, hrules]; rfl)]
      exact .rules hsettings hrules
    | ok l =>
      have hdecisions := decisions_of_load hsettings hrules
      cases hanswer : (decide c.actor c.repo c.paths).answer (c.guard settings l) with
      | error fault =>
        obtain ⟨path, later, hpaths, hcheck⟩ := answer_of_decide_error hanswer
        rw [hfailure (.check fault) (by rw [hdecisions, hanswer]; rfl)]
        exact .check hsettings hrules hpaths hcheck
      | ok ds =>
        obtain ⟨hpaths, hchecks⟩ := answer_of_decide hanswer
        rw [hsuccess ds (by rw [hdecisions, hanswer]; rfl)]
        exact .decisions hsettings hrules hpaths hchecks (prints_layOut c.json ds)

end Reports

/-- A command line that is read asks for what it is written for, and reports the answers of the checks of
    its paths, all of them or none: its status is zero just when settings and rules are loaded and every
    check succeeds, and otherwise one, with nothing printed. The settings are loaded from the document that
    the command line names, or else a variable. -/
theorem run_of_parse {words : List String} {general : General} {command : Command}
    (hparse : parse words = .ok (general, command)) (s : Surroundings) :
    let document? := general.config?.or (s.environment.get? "SUBREPO_AUTHZ_CONFIG")
    (∃ given items later, General.Words none given words later ∧ general.Holds given ∧
      Command.Words none items later ∧ command.Holds items) ∧
    Reports s document? command (run s words) ∧
    ((run s words).status = 0 ↔ Succeeds s document? command) ∧
    ((run s words).status ≠ 0 → (run s words).status = 1 ∧ (run s words).output = "") := by
  intro document?
  have hreports := reports_of_parse hparse s
  rw [document?_eq] at hreports
  exact ⟨words_of_parse hparse, hreports, hreports.status_eq_zero_iff, hreports.of_status_ne_zero⟩

/-- The document may be named by an option, and then the flag decides on enforcement, or by a variable,
    whose document turns enforcement on here. -/
theorem run_of_parse_listed :
    let rules := Utf8.encode ("supported_repos = [\"r\"]\n" ++
      "[[rules]]\nuser_id = 5\nrepo = \"r\"\npath_includes = [\"r/src/**\"]\n")
    let on := Utf8.encode "experimental_features.enable_sub_repo_permissions = true"
    let files :=
      ((FileTree.empty.write "rules.toml" rules).write "off.toml" []).write "/etc/on.toml" on
    let s := Surroundings.ofTree files .empty
    let named := Surroundings.ofTree files ⟨[("SUBREPO_AUTHZ_CONFIG", "/etc/on.toml")]⟩
    let words := ["-c=off.toml", "check", "--rules", "rules.toml", "src/a.rs", "--repo=r",
      "--user", "5", "--enforce", "--", "-c", "src/a.rs"]
    let jsonWords := ["check", "--rules=rules.toml", "--repo=r", "--user=5", "--json", "\"a\""]
    let general : General := ⟨some "off.toml", none⟩
    let command : Command :=
      ⟨"rules.toml", "r", .ofUser 5, some true, false, ["src/a.rs", "-c", "src/a.rs"]⟩
    let jsonCommand : Command := ⟨"rules.toml", "r", .ofUser 5, none, true, ["\"a\""]⟩
    (parse words = .ok (general, command) ∧
      run s words = .success "read\tsrc/a.rs\nnone\t-c\nread\tsrc/a.rs\n" ∧
      Reports s (some "off.toml") command (run s words) ∧ Succeeds s (some "off.toml") command) ∧
    parse jsonWords = .ok (.empty, jsonCommand) ∧
      run named jsonWords = .success
        "[\n  \x7b\n    \"path\": \"\\\"a\\\"\",\n    \"perms\": \"none\"\n  \x7d\n]\n" ∧
      Reports named (some "/etc/on.toml") jsonCommand (run named jsonWords) := by
  intro rules on files s named words jsonWords general command jsonCommand
  have hparse : parse words = .ok (general, command) := rfl
  have hjsonParse : parse jsonWords = .ok (.empty, jsonCommand) := rfl
  have hrun : run s words = .success "read\tsrc/a.rs\nnone\t-c\nread\tsrc/a.rs\n" := by
    decide +kernel
  have hjsonRun : run named jsonWords = .success
      "[\n  \x7b\n    \"path\": \"\\\"a\\\"\",\n    \"perms\": \"none\"\n  \x7d\n]\n" := by
    decide +kernel
  have hnamed : General.empty.config?.or (named.environment.get? "SUBREPO_AUTHZ_CONFIG") =
      some "/etc/on.toml" := by
    decide +kernel
  obtain ⟨-, hreports, hzero, -⟩ := run_of_parse hparse s
  obtain ⟨-, hjsonReports, -⟩ := run_of_parse hjsonParse named
  rw [hnamed] at hjsonReports
  exact ⟨⟨hparse, hrun, hreports, hzero.1 (by rw [hrun]; rfl)⟩, hjsonParse, hjsonRun, hjsonReports⟩

end PathGuard.CommandLine
