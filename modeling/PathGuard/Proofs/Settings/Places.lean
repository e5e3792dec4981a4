import PathGuard.Proofs.Path.Segments
import PathGuard.Proofs.Settings.Order
import PathGuard.Proofs.Settings.Source
import PathGuard.Proofs.Utf8.Decoding

/-!
# Documents by name, by place and by text

There are three ways to settings: from a text, from a document that is named, and from the first of the
default places that is there. They agree. A document in a file gives what its text gives, where no
variable sets a key. Without a name a document is loaded as if its place had been named, and what is at
later places does not matter; without any document settings are loaded as from an empty file. All of
this holds in whatever order the keys come, if they come in the same order both ways. Keys that part from
one another may come in different orders.

## Main definitions

- `Environment.SetsNothing`: environments in which no variable sets a key
- `HasPartedKeys`: loads for which the order of keys does not matter

## Main results

- `load_of_text`: a document in a file and its text
- `load_none_of_first`, `load_none_of_later`: the first of the default places
- `load_none_of_nowhere`: no default place
- `ofText_of_isParted`, `HasPartedKeys.load_eq`: keys in different orders
- `ways_agree`: all of it
-/

namespace PathGuard

/-- Environments in which no variable sets a key. The case of the letters of a name does not matter. -/
def Environment.SetsNothing (e : Environment) : Prop :=
  ∀ binding ∈ e.bindings, Settings.variableKey? binding.1 = none

namespace Settings

/-- The keys of the document that is read part from one another, and so do those of the variables. -/
structure HasPartedKeys (s : Surroundings) (path : Option String) : Prop where
  document : ∀ place layer, source s path = .ok (some place) → layerOfFile s place = .ok layer →
    Tree.IsParted layer
  environment : Tree.IsParted (variableLayer s.environment)

variable {s s' : Surroundings} {place : String}

theorem hasPath_of_file? {bytes : List UInt8} (h : s.file? place = some bytes) :
    s.hasPath place = true := by
  rw [Surroundings.file?] at h
  rw [Surroundings.hasPath]
  cases hlook : s.look place with
  | none =>
    rw [hlook] at h
    cases h
  | some content => rfl

/-! ### A document and its text -/

theorem variableLayer_of_setsNothing {e : Environment} (h : e.SetsNothing) : variableLayer e = [] := by
  have hentries : variableEntries e = [] := by
    rw [variableEntries, List.filterMap_eq_nil_iff]
    rintro ⟨name, text⟩ hbinding
    exact Option.map_eq_none_iff.2 (h _ hbinding)
  rw [variableLayer, hentries]
  rfl

/-- A layer that has no keys changes nothing. -/
theorem ofLayers_concat_nil (layers : List (List (String × Tree))) :
    ofLayers (layers ++ [[]]) = ofLayers layers := by
  rw [ofLayers, List.foldl_append]
  rfl

theorem load_of_file? {bytes : List UInt8} (h : s.file? place = some bytes) :
    load s (some place) = ofBytes bytes s.environment s.orders := by
  rw [load_of_source (source_some_eq_ok_iff.2 ⟨rfl, hasPath_of_file? h⟩), ofPlace_of_file? h]

theorem load_of_text {text : String} (hmark : text.toList.head? ≠ some '\ufeff')
    (henv : s.environment.SetsNothing) (hfile : s.file? place = some (Utf8.encode text)) :
    load s (some place) = ofText text s.orders.document := by
  rw [load_of_file? hfile, ofBytes, Utf8.decodeLossy_dropMark_encode hmark,
    variableLayer_of_setsNothing henv, arrange_nil, ofText]
  cases layerOfText text with
  | error fault => rfl
  | ok layer => exact ofLayers_concat_nil [s.orders.document.arrange layer]

/-! ### The default places -/

variable {before after : List String}

theorem load_none_of_first (hplaces : defaultPlaces s.environment = before ++ place :: after)
    (hbefore : ∀ other ∈ before, s.hasPath other = false) (hplace : s.hasPath place = true) :
    load s none = load s (some place) := by
  rw [load_of_source (source_none_eq_ok_iff.2 ⟨before, after, hplaces, hplace, hbefore⟩),
    load_of_source (source_some_eq_ok_iff.2 ⟨rfl, hplace⟩)]

/-- An empty file is a document that sets nothing. -/
theorem load_none_of_nowhere (hplaces : ∀ place ∈ defaultPlaces s.environment, s.hasPath place = false)
    (henv : s'.environment = s.environment) (horders : s'.orders = s.orders)
    (hfile : s'.file? place = some []) : load s none = load s' (some place) := by
  have hsource : source s none = .ok none := by
    rw [source, List.find?_eq_none.2 fun place hmem => by simp [hplaces place hmem]]
  have hempty : layerOfText (Utf8.decodeLossy (Utf8.dropMark [])) = .ok [] := rfl
  rw [load_of_source hsource, load_of_file? hfile, ofBytes, henv, horders, hempty]
  exact (ofLayers_arrange_nil_cons ..).symm

/-! ### What is at later places -/

theorem defaultPlaces_eq {e : Environment} {home : String} (h : e.get? "HOME" = some home)
    (hhome : home ≠ "") :
    defaultPlaces e = ["subrepo-authz.toml", ".subrepo-authz.toml",
      home ++ "/.config/subrepo-authz/config.toml", "/etc/subrepo-authz/config.toml"] := by
  rw [defaultPlaces, h]
  split
  · next heq => exact absurd (Option.some.inj heq) hhome
  · rfl

theorem defaultPlaces_cases (e : Environment) :
    (∃ home, defaultPlaces e = ["subrepo-authz.toml", ".subrepo-authz.toml",
      home ++ "/.config/subrepo-authz/config.toml", "/etc/subrepo-authz/config.toml"]) ∨
    defaultPlaces e =
      ["subrepo-authz.toml", ".subrepo-authz.toml", "/etc/subrepo-authz/config.toml"] := by
  cases hhome : e.get? "HOME" with
  | none =>
    right
    rw [defaultPlaces, hhome]
    rfl
  | some home =>
    by_cases hempty : home = ""
    · right
      rw [defaultPlaces, hhome, hempty]
      rfl
    · exact .inl ⟨home, defaultPlaces_eq hhome hempty⟩

/-- To a path that ends in a name with an extension another one is added where the path ends. -/
theorem withExtension?_of_reversed {path : String} {name : Path.Segment} {above : List Path.Segment}
    (h : (Path.segments path.toList).reverse = name :: above) (hidle : isIdle name = false)
    (hparent : name ≠ Path.parent) (hextension : hasExtension name = true) :
    withExtension? path = some (path ++ ".toml") := by
  have hnoSlash : (name :: above).head? ≠ some [] := by
    rintro ⟨⟩
    cases hidle
  rw [withExtension?, h, List.dropWhile_cons_of_neg (by simp [hidle])]
  simp only [if_neg hparent, hextension, if_true, if_neg hnoSlash]
  rfl

theorem withExtension?_of_mem {e : Environment} (h : place ∈ defaultPlaces e) :
    withExtension? place = some (place ++ ".toml") := by
  have hhome : ∀ home : String,
      withExtension? (home ++ "/.config/subrepo-authz/config.toml") =
        some (home ++ "/.config/subrepo-authz/config.toml" ++ ".toml") := by
    intro home
    have hbelow : Path.segments ".config/subrepo-authz/config.toml".toList =
        [".config".toList, "subrepo-authz".toList, "config.toml".toList] := by decide
    refine @withExtension?_of_reversed _ "config.toml".toList
      ("subrepo-authz".toList :: ".config".toList :: (Path.segments home.toList).reverse) ?_
      (by decide) (by decide) (by decide)
    calc (Path.segments (home ++ "/.config/subrepo-authz/config.toml").toList).reverse
        = (Path.segments (home.toList ++ '/' :: ".config/subrepo-authz/config.toml".toList)).reverse := by
          rw [String.toList_append]
          rfl
      _ = _ := by
          rw [Path.segments_append_slash, hbelow, List.reverse_append]
          rfl
  have hfixed : ∀ place ∈ ["subrepo-authz.toml", ".subrepo-authz.toml",
      "/etc/subrepo-authz/config.toml"], withExtension? place = some (place ++ ".toml") := by
    decide +kernel
  rcases defaultPlaces_cases e with ⟨home, hplaces⟩ | hplaces
  · rw [hplaces] at h
    simp only [List.mem_cons, List.not_mem_nil, or_false] at h
    rcases h with rfl | rfl | rfl | rfl
    · exact hfixed _ (by simp)
    · exact hfixed _ (by simp)
    · exact hhome home
    · exact hfixed _ (by simp)
  · rw [hplaces] at h
    exact hfixed place h

/-- No default place, nor the file that it names with an extension added, is as long as a later one. -/
theorem pairwise_defaultPlaces (e : Environment) :
    (defaultPlaces e).Pairwise fun place other =>
      place.length ≠ other.length ∧ (place ++ ".toml").length ≠ other.length := by
  rcases defaultPlaces_cases e with ⟨home, hplaces⟩ | hplaces
  · have hplain : "subrepo-authz.toml".length = 18 := rfl
    have hhidden : ".subrepo-authz.toml".length = 19 := rfl
    have hhome : "/.config/subrepo-authz/config.toml".length = 34 := rfl
    have hsystem : "/etc/subrepo-authz/config.toml".length = 30 := rfl
    have hextension : ".toml".length = 5 := rfl
    rw [hplaces]
    simp only [List.pairwise_cons, List.forall_mem_cons, String.length_append, hplain, hhidden, hhome,
      hsystem, hextension, List.not_mem_nil, false_implies, implies_true, and_true, List.Pairwise.nil]
    omega
  · rw [hplaces]
    decide

/-- Of a document that is named only the place matters, and the file that it names with an extension
    added. -/
theorem load_some_congr (henv : s'.environment = s.environment) (horders : s'.orders = s.orders)
    (hplace : s'.look place = s.look place)
    (hextended : ∀ other, withExtension? place = some other → s'.look other = s.look other) :
    load s' (some place) = load s (some place) := by
  have hbytes : documentBytes? s' place = documentBytes? s place := by
    simp only [documentBytes?, Surroundings.file?, hplace]
    cases hextension : withExtension? place with
    | none => rfl
    | some other => simp only [Option.bind_some, Surroundings.file?, hextended other hextension]
  have hhasPath : s'.hasPath place = s.hasPath place := by
    rw [Surroundings.hasPath, Surroundings.hasPath, hplace]
  cases h : s.hasPath place with
  | false => rw [load_of_not_hasPath h, load_of_not_hasPath (hhasPath.trans h)]
  | true =>
    rw [load_of_source (source_some_eq_ok_iff.2 ⟨rfl, h⟩),
      load_of_source (source_some_eq_ok_iff.2 ⟨rfl, hhasPath.trans h⟩), ofPlace, ofPlace, layerOfFile,
      layerOfFile, hbytes, henv, horders]

/-- What is at the places after the first one that is there does not matter. -/
theorem load_none_of_later (hplaces : defaultPlaces s.environment = before ++ place :: after)
    (hbefore : ∀ other ∈ before, s.hasPath other = false) (hplace : s.hasPath place = true)
    (henv : s'.environment = s.environment) (horders : s'.orders = s.orders)
    (hlook : ∀ path, path ∉ after → s'.look path = s.look path) : load s' none = load s none := by
  have hpairwise := pairwise_defaultPlaces s.environment
  rw [hplaces, List.pairwise_append, List.pairwise_cons] at hpairwise
  obtain ⟨-, ⟨hafter, -⟩, hcross⟩ := hpairwise
  have hhere : s'.look place = s.look place :=
    hlook place fun hmem => (hafter place hmem).1 rfl
  have hextended : s'.look (place ++ ".toml") = s.look (place ++ ".toml") :=
    hlook _ fun hmem => (hafter _ hmem).2 rfl
  have hbefore' : ∀ other ∈ before, s'.hasPath other = false := by
    intro other hother
    have hlook' : s'.look other = s.look other := hlook other fun hmem =>
      (hcross other hother other (List.mem_cons_of_mem _ hmem)).1 rfl
    rw [Surroundings.hasPath, hlook']
    exact hbefore other hother
  have hmem : place ∈ defaultPlaces s.environment := by simp [hplaces]
  calc load s' none
      = load s' (some place) := load_none_of_first (henv ▸ hplaces) hbefore' (by
          rw [Surroundings.hasPath, hhere]
          exact hplace)
    _ = load s (some place) := load_some_congr henv horders hhere fun other hother => by
          obtain rfl := Option.some.inj ((withExtension?_of_mem hmem).symm.trans hother)
          exact hextended
    _ = load s none := (load_none_of_first hplaces hbefore hplace).symm

/-! ### Keys in different orders -/

/-- If the keys of a text part from one another, it gives the same settings in whatever order they come. -/
theorem ofText_of_isParted {text : String}
    (h : ∀ layer, layerOfText text = .ok layer → Tree.IsParted layer) (order order' : KeyOrder) :
    ofText text order = ofText text order' := by
  rw [ofText, ofText]
  cases htext : layerOfText text with
  | error fault => rfl
  | ok layer => exact ofLayers_of_perm (.cons ((h layer htext).arrange ..) .nil)

theorem HasPartedKeys.load_eq {path : Option String} (h : HasPartedKeys s path) (orders : KeyOrders) :
    load { s with orders } path = load s path := by
  have hvariables := h.environment.arrange orders.environment s.orders.environment
  have hother : source { s with orders } path = source s path := rfl
  cases hsource : source s path with
  | error fault =>
    rw [load, load, hother, hsource]
    rfl
  | ok found =>
    rw [load_of_source hsource, load_of_source (hother.trans hsource)]
    cases found with
    | none =>
      have hnothing : Tree.IsParted [] := .nil
      exact ofLayers_of_perm (.cons ⟨.nil, hnothing⟩ (.cons hvariables .nil))
    | some place =>
      have hplace : layerOfFile { s with orders } place = layerOfFile s place := rfl
      rw [ofPlace, ofPlace, hplace]
      cases hlayer : layerOfFile s place with
      | error fault => rfl
      | ok layer =>
        have hdocument := (h.document place layer hsource hlayer).arrange orders.document
          s.orders.document
        exact ofLayers_of_perm (.cons hdocument (.cons hvariables .nil))

/-- The three ways to settings agree. A document in a file gives the settings, or the fault, of its text,
    where no variable sets a key. Without a name a document is loaded as if the first of the default
    places that is there had been named, whatever is at later places, and if none of them is there,
    settings are loaded as from an empty file. The default places are two in the working directory, one
    below the home directory and one of the system.

    The keys of a source come in any order, but in the same order both ways. If they part from one
    another, they may come in one order on one way and in another one on the other. -/
theorem ways_agree :
    (∀ (s : Surroundings) (path text : String), text.toList.head? ≠ some '\ufeff' →
      s.environment.SetsNothing → s.file? path = some (Utf8.encode text) →
      load s (some path) = ofText text s.orders.document ∧
      ((∀ layer, layerOfText text = .ok layer → Tree.IsParted layer) →
        ∀ order, load s (some path) = ofText text order)) ∧
    (∀ (s : Surroundings) (before after : List String) (place : String),
      defaultPlaces s.environment = before ++ place :: after →
      (∀ other ∈ before, s.hasPath other = false) → s.hasPath place = true →
      load s none = load s (some place) ∧
      ∀ s' : Surroundings, s'.environment = s.environment → s'.orders = s.orders →
        (∀ path, path ∉ after → s'.look path = s.look path) → load s' none = load s (some place)) ∧
    (∀ (s s' : Surroundings) (path : String),
      (∀ place ∈ defaultPlaces s.environment, s.hasPath place = false) →
      s'.environment = s.environment → s'.orders = s.orders → s'.file? path = some [] →
      load s none = load s' (some path)) ∧
    (∀ (e : Environment) (home : String), e.get? "HOME" = some home → home ≠ "" →
      defaultPlaces e = ["subrepo-authz.toml", ".subrepo-authz.toml",
        home ++ "/.config/subrepo-authz/config.toml", "/etc/subrepo-authz/config.toml"]) ∧
    ∀ (s : Surroundings) (path : Option String), HasPartedKeys s path →
      ∀ orders, load { s with orders } path = load s path := by
  refine ⟨fun s path text hmark henv hfile => ?_,
    fun s before after place hplaces hbefore hplace => ?_,
    fun s s' path hplaces henv horders hfile => load_none_of_nowhere hplaces henv horders hfile,
    fun e home hhome hne => defaultPlaces_eq hhome hne, fun s path h => h.load_eq⟩
  · have htext := load_of_text hmark henv hfile
    exact ⟨htext, fun hparted order => htext.trans (ofText_of_isParted hparted ..)⟩
  · have hfirst := load_none_of_first hplaces hbefore hplace
    exact ⟨hfirst, fun s' henv horders hlook =>
      (load_none_of_later hplaces hbefore hplace henv horders hlook).trans hfirst⟩

/-- A directory at a default place hides the document at a later one. Keys of a document that part may come
    in reverse. -/
theorem ways_agree_hidden :
    let hidden : Surroundings := {
      look := fun path =>
        if path = ".subrepo-authz.toml" then some .directory
        else if path = "/etc/subrepo-authz/config.toml" then some (.file []) else none
      environment := .empty }
    let text := "title = 'x'\n[logging]\nlevel = 'Warn'"
    let reversed : Surroundings := {
      look := fun _ => some (.file (Utf8.encode text))
      environment := .empty
      orders := ⟨⟨List.reverse, List.reverse_perm⟩, .asWritten⟩ }
    load hidden none = .error (.malformed "the settings are not a file") ∧
      load reversed (some "c.toml") = ofText text := by
  intro hidden text reversed
  have hkeys : (layerOfText text).toOption.all (fun layer => decide (Tree.IsParted layer)) = true := by
    decide +kernel
  have hparted : ∀ layer, layerOfText text = .ok layer → Tree.IsParted layer := by
    intro layer hlayer
    rw [hlayer] at hkeys
    exact of_decide_eq_true hkeys
  obtain ⟨hfile, hfirst, -⟩ := ways_agree
  constructor
  · exact (hfirst hidden ["subrepo-authz.toml"] ["/etc/subrepo-authz/config.toml"] _ rfl (by decide)
      (by decide)).1.trans rfl
  · exact (hfile reversed "c.toml" text (by decide +kernel) (by simp [Environment.SetsNothing, reversed,
      Environment.empty]) rfl).2 hparted .asWritten

end Settings

end PathGuard
