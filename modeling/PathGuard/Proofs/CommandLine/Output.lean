import PathGuard.Exchange
import PathGuard.Proofs.CommandLine.Decisions

/-!
# Reading what is printed

Both layouts of decisions can be read back. The JSON array is read whatever characters the paths hold; lines
are read if no path has a line end in it. So both layouts tell the same decisions.

## Main definitions

- `Decision.ofJson?`, `Decision.ofLine?`, `Decision.ofLines?`: reading decisions
- `Tells`: an output from which decisions are read

## Main results

- `Decision.ofJson?_toJson`, `Decision.ofLines?_lines`: the layouts are read back
- `tells_of_run`: a command line that succeeds prints what is read as its decisions
-/

namespace PathGuard.CommandLine

/-! ### Reading decisions -/

/-- Where one value is read back, so is a list of them. -/
theorem mapM_map_of_reads {α β : Type} {write : α → β} {read : β → Option α}
    (h : ∀ a, read (write a) = some a) (as : List α) : (as.map write).mapM read = some as := by
  induction as with
  | nil => rfl
  | cons a as ih =>
    rw [List.map_cons, List.mapM_cons, h, ih]
    rfl

namespace Decision

/-- Reads a decision from an object that has a path and a permission, and no other member. -/
def ofJson? : Json → Option Decision
  | .object members => do
    let entries ← Json.keyed? members
    let path ← entries.read "path" Json.text?
    let permission ← entries.read "perms" Permission.ofJson?
    if entries.length = 2 then some ⟨path, permission⟩ else none
  | _ => none

/-- Reads a decision from a line without its end: the permission, up to the first tab, and the path. -/
def ofLine? (line : List Char) : Option Decision :=
  match line.span (· != '\t') with
  | (name, _ :: path) => (Permission.ofName? (String.ofList name)).map (⟨String.ofList path, ·⟩)
  | (_, []) => none

/-- Reads decisions from lines. Nothing comes after the end of the last one. -/
def ofLines? (output : String) : Option (List Decision) :=
  (output.toList.splitOn '\n').dropLast.mapM ofLine?

theorem ofName?_name (p : Permission) : Permission.ofName? p.name = some p := by
  cases p <;> rfl

theorem notMem_name {c : Char} (hc : c = '\t' ∨ c = '\n') (p : Permission) : c ∉ p.name.toList := by
  rcases hc with rfl | rfl <;> cases p <;> decide

theorem ofJson?_toJson (d : Decision) : ofJson? d.toJson = some d := by
  have hpermission : Permission.ofJson? (.ofString d.permission.name) = some d.permission :=
    ofName?_name d.permission
  have hpath : Record.read [("path", Json.ofString d.path), ("perms", .ofString d.permission.name)] "path"
      Json.text? = some d.path := rfl
  have hperms : Record.read [("path", Json.ofString d.path), ("perms", .ofString d.permission.name)] "perms"
      Permission.ofJson? = some d.permission := hpermission
  simp only [toJson, ofJson?, Json.keyed?, Option.map_some, Option.bind_eq_bind, Option.bind_some, hpath,
    hperms]
  rfl

/-- A line is read back, without its end. -/
theorem ofLine?_line (d : Decision) :
    ofLine? (d.permission.name.toList ++ '\t' :: d.path.toList) = some d := by
  have hname : ∀ c ∈ d.permission.name.toList, (c != '\t') = true := by
    intro c hc
    rw [bne_iff_ne]
    rintro rfl
    exact notMem_name (.inl rfl) d.permission hc
  have hspan : (d.permission.name.toList ++ '\t' :: d.path.toList).span (· != '\t') =
      (d.permission.name.toList, '\t' :: d.path.toList) := by
    rw [List.span_eq_takeWhile_dropWhile, List.takeWhile_append_of_pos hname,
      List.dropWhile_append_of_pos hname]
    simp
  rw [ofLine?, hspan]
  simp only [String.ofList_toList, ofName?_name, Option.map_some]

/-- Lines end where they are written to end, if no path has a line end in it. -/
theorem splitOn_lines {ds : List Decision} (h : ∀ d ∈ ds, '\n' ∉ d.path.toList) :
    (lines ds).splitOn '\n' =
      ds.map (fun d => d.permission.name.toList ++ '\t' :: d.path.toList) ++ [[]] := by
  induction ds with
  | nil => exact List.splitOn_nil '\n'
  | cons d ds ih =>
    obtain ⟨hd, hds⟩ := List.forall_mem_cons.1 h
    have hnot : '\n' ∉ d.permission.name.toList ++ '\t' :: d.path.toList := by
      simp [notMem_name (.inr rfl) d.permission, hd]
    have hlines : lines (d :: ds) =
        (d.permission.name.toList ++ '\t' :: d.path.toList) ++ '\n' :: lines ds := by
      simp [lines, line]
    rw [hlines, List.splitOn_append_cons_self_of_not_mem hnot, ih hds]
    rfl

/-- Lines are read back, if no path has a line end in it. -/
theorem ofLines?_lines {ds : List Decision} (h : ∀ d ∈ ds, '\n' ∉ d.path.toList) :
    ofLines? (String.ofList (lines ds)) = some ds := by
  rw [ofLines?, String.toList_ofList, splitOn_lines h, List.dropLast_concat]
  exact mapM_map_of_reads ofLine?_line ds

end Decision

/-! ### Outputs -/

/-- A JSON object with a path and a permission, and no other member. -/
def HoldsDecision (item : Json) : Prop :=
  ∃ path permission, item = .object [(.unicode "path", path), (.unicode "perms", permission)]

/-- What is read from an output in a layout are the given decisions. -/
inductive Tells (ds : List Decision) (output : String) : Bool → Prop where
  | document {items : List Json} (hparse : Json.parse? output = some (.array items))
      (hitems : ∀ item ∈ items, HoldsDecision item) (hread : items.mapM Decision.ofJson? = some ds) :
      Tells ds output true
  | lines (hread : (∀ d ∈ ds, '\n' ∉ d.path.toList) → Decision.ofLines? output = some ds) :
      Tells ds output false

theorem tells_layOut (json : Bool) (ds : List Decision) : Tells ds (layOut json ds) json := by
  cases json with
  | true =>
    refine .document (Json.parse?_pretty (Decision.isLegible_array ds) 0
      (by simp [Json.AreBlank, Json.isBlank])) ?_ (mapM_map_of_reads Decision.ofJson?_toJson ds)
    intro item hitem
    obtain ⟨d, -, rfl⟩ := List.mem_map.1 hitem
    exact ⟨_, _, rfl⟩
  | false => exact .lines Decision.ofLines?_lines

/-- There is one decision for each path, in the order given. -/
theorem map_path_of_decisions {s : Surroundings} {general : General} {command : Command}
    {ds : List Decision} (h : decisions s general command = .ok ds) :
    ds.map Decision.path = command.paths := by
  cases hsettings : Settings.load s (general.document? s.environment) with
  | error fault =>
    rw [decisions, hsettings] at h
    cases h
  | ok settings =>
    cases hrules : Ledger.load s command.rules with
    | error fault =>
      rw [decisions, hsettings, hrules] at h
      cases h
    | ok l =>
      rw [decisions_of_load hsettings hrules] at h
      cases hanswer :
          (decide command.actor command.repo command.paths).answer (command.guard settings l) with
      | error fault =>
        rw [hanswer] at h
        cases h
      | ok ds' =>
        rw [hanswer] at h
        obtain rfl := Except.ok.inj h
        exact (answer_of_decide hanswer).1

/-- A command line that succeeds prints a decision on each of its paths so that they can be read back. Another
    one that differs in nothing but the layout prints the same decisions. -/
theorem tells_of_run {s : Surroundings} {words : List String} {general : General} {command : Command}
    (hparse : parse words = .ok (general, command)) (hstatus : (run s words).status = 0) :
    ∃ ds, decisions s general command = .ok ds ∧ ds.map Decision.path = command.paths ∧
      Tells ds (run s words).output command.json ∧
      ∀ words' json, parse words' = .ok (general, { command with json }) →
        (run s words').status = 0 ∧ Tells ds (run s words').output json := by
  cases hdecisions : decisions s general command with
  | error cause =>
    rw [(run_of_decisions hparse).2 cause hdecisions] at hstatus
    cases hstatus
  | ok ds =>
    refine ⟨ds, rfl, map_path_of_decisions hdecisions, ?_, fun words' json hparse' => ?_⟩
    · rw [(run_of_decisions hparse).1 ds hdecisions]
      exact tells_layOut command.json ds
    · rw [(run_of_decisions hparse').1 ds hdecisions]
      exact ⟨rfl, tells_layOut json ds⟩

theorem tells_of_run_quoted :
    let rules := Utf8.encode ("supported_repos = [\"r\"]\n" ++
      "[[rules]]\nuser_id = 5\nrepo = \"r\"\npath_includes = [\"r/src/**\"]\n")
    let s := Surroundings.ofTree
      ((FileTree.empty.write "rules.toml" rules).write "off.toml" []) .empty
    let words := ["-c=off.toml", "check", "--rules=rules.toml", "--repo=r", "--user=5", "--enforce"]
    let paths := ["src/\"a\"\t\u0001.rs", "\\"]
    let ds : List Decision := [⟨"src/\"a\"\t\u0001.rs", .read⟩, ⟨"\\", .none⟩]
    let general : General := ⟨some "off.toml", none⟩
    let command : Command := ⟨"rules.toml", "r", .ofUser 5, some true, true, paths⟩
    parse (words ++ ["--json"] ++ paths) = .ok (general, command) ∧
      (run s (words ++ ["--json"] ++ paths)).status = 0 ∧
      Tells ds (run s (words ++ ["--json"] ++ paths)).output true ∧
      Tells ds (run s (words ++ paths)).output false := by
  intro rules s words paths ds general command
  have hparse : parse (words ++ ["--json"] ++ paths) = .ok (general, command) := rfl
  have hdecisions : decisions s general command = .ok ds := by decide +kernel
  have hstatus : (run s (words ++ ["--json"] ++ paths)).status = 0 := by
    rw [(run_of_decisions hparse).1 ds hdecisions]
    rfl
  obtain ⟨ds', hdecisions', -, hdocument, hother⟩ := tells_of_run hparse hstatus
  obtain rfl : ds' = ds := Except.ok.inj (hdecisions'.symm.trans hdecisions)
  exact ⟨hparse, hstatus, hdocument, (hother (words ++ paths) false rfl).2⟩

end PathGuard.CommandLine
