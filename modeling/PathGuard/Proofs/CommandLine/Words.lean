import Mathlib.Data.List.TakeDrop
import PathGuard.CommandLine

/-!
# How a command line is written

A command line names options and flags in any order, each option with its value in the same word or in
the next one, and paths between them. What the words are read as is what they are written for: nothing
is left out, given twice, or taken from elsewhere.

## Main definitions

- `Word.text`: how a word is written
- `General.Words`, `Command.Words`: the words that give options, flags and paths
- `General.Holds`, `Command.Holds`: what is asked for by options, flags and paths

## Main results

- `General.words_of_read`, `Draft.words_of_read`: the two parts of a command line
- `words_of_parse`: a command line that is read asks for what it is written for
-/

namespace PathGuard.CommandLine

/-! ### Words -/

def Word.text : Word → String
  | terminator => "--"
  | long name none => "--" ++ name
  | long name (some value) => "--" ++ name ++ "=" ++ value
  | short first rest => String.ofList ('-' :: first :: rest)
  | plain text => text

/-- A word that is not taken for an option: it does not begin with a dash, or is a dash alone. -/
def IsPlain (text : String) : Prop :=
  text = "-" ∨ text.toList.head? ≠ some '-'

/-- A text is what stands before the first character of a kind, and what begins with it. -/
theorem eq_append_of_span {cs before rest : List Char} {p : Char → Bool}
    (h : cs.span p = (before, rest)) : cs = before ++ rest ∧ ∀ c ∈ rest.head?, p c = false := by
  rw [List.span_eq_takeWhile_dropWhile, Prod.mk.injEq] at h
  obtain ⟨rfl, rfl⟩ := h
  refine ⟨List.takeWhile_append_dropWhile.symm, fun c hc => ?_⟩
  have hhead := List.head?_dropWhile_not p cs
  rw [Option.mem_def.1 hc] at hhead
  exact hhead

/-- The kind of a word tells all that is written in it. -/
theorem Word.text_ofString (text : String) : (ofString text).text = text := by
  apply String.toList_inj.1
  unfold ofString
  split
  · next h => exact h.symm
  · next cs _ h =>
    rw [h]
    split
    · next name hspan =>
      obtain ⟨rfl, -⟩ := eq_append_of_span hspan
      simp [Word.text]
    · next name mark value hspan =>
      obtain ⟨rfl, hmark⟩ := eq_append_of_span hspan
      have hequals : mark = '=' := by simpa using hmark mark rfl
      simp [Word.text, hequals]
  · next first rest _ _ h => simp [Word.text, h]
  · rfl

theorem Word.eq_text {text : String} {w : Word} (h : ofString text = w) : text = w.text := by
  rw [← h, text_ofString]

theorem Word.isPlain {text value : String} (h : ofString text = .plain value) : IsPlain text := by
  unfold ofString at h
  split at h
  · cases h
  · split at h <;> cases h
  · cases h
  · next hother =>
    by_contra hplain
    rw [IsPlain, not_or, not_ne_iff] at hplain
    obtain ⟨hdash, hhead⟩ := hplain
    obtain ⟨rest, htext⟩ := List.head?_eq_some_iff.1 hhead
    cases rest with
    | nil => exact hdash (String.toList_inj.1 htext)
    | cons first rest => exact hother first rest htext

/-! ### Options before the command -/

def GeneralOption.name : GeneralOption → String
  | config => "config"
  | logLevel => "log-level"

theorem GeneralOption.name_of_ofName? {name : String} {o : GeneralOption}
    (h : ofName? name = some o) : o.name = name := by
  unfold ofName? at h
  split at h <;> cases h <;> rfl

/-- The words up to the command give options with values, and words follow. A value for an option may be
    due. -/
inductive General.Words : Option GeneralOption → List (GeneralOption × String) → List String →
    List String → Prop where
  | command (later : List String) : Words none [] ("check" :: later) later
  | value (o : GeneralOption) {value : String} (hvalue : IsPlain value)
      {given : List (GeneralOption × String)} {words later : List String}
      (h : Words none given words later) : Words (some o) ((o, value) :: given) (value :: words) later
  | apart (o : GeneralOption) {given : List (GeneralOption × String)} {words later : List String}
      (h : Words (some o) given words later) : Words none given (("--" ++ o.name) :: words) later
  | joined (o : GeneralOption) (value : String) {given : List (GeneralOption × String)}
      {words later : List String} (h : Words none given words later) :
      Words none ((o, value) :: given) (("--" ++ o.name ++ "=" ++ value) :: words) later
  | letterApart {given : List (GeneralOption × String)} {words later : List String}
      (h : Words (some .config) given words later) : Words none given ("-c" :: words) later
  | letterEqual (value : String) {given : List (GeneralOption × String)} {words later : List String}
      (h : Words none given words later) :
      Words none ((.config, value) :: given) (("-c=" ++ value) :: words) later
  | letterJoined {value : String} (hvalue : value ≠ "" ∧ value.toList.head? ≠ some '=')
      {given : List (GeneralOption × String)} {words later : List String}
      (h : Words none given words later) :
      Words none ((.config, value) :: given) (("-c" ++ value) :: words) later

/-- The values given for an option, in order. -/
def valuesOf (o : GeneralOption) (given : List (GeneralOption × String)) : List String :=
  (given.filter (·.1 = o)).map Prod.snd

/-- The options hold the values given, of which there is at most one for each. -/
structure General.Holds (g : General) (given : List (GeneralOption × String)) : Prop where
  config : valuesOf .config given = g.config?.toList
  logLevel : valuesOf .logLevel given = g.logLevel?.toList

/-- What is set only if it is not set yet was not set before. -/
theorem eq_none_of_ite {α β : Type} {x : Option α} {y : Option β} {b : β}
    (h : (if x.isSome then none else y) = some b) : x = none ∧ y = some b := by
  by_cases hx : x.isSome
  · rw [if_pos hx] at h
    cases h
  · rw [if_neg hx] at h
    exact ⟨Option.not_isSome_iff_eq_none.1 hx, h⟩

theorem valuesOf_concat (o o' : GeneralOption) (value : String)
    (given : List (GeneralOption × String)) :
    valuesOf o (given ++ [(o', value)]) =
      valuesOf o given ++ if o' = o then [value] else [] := by
  by_cases h : o' = o <;> simp [valuesOf, h]

theorem General.holds_empty : empty.Holds [] :=
  ⟨rfl, rfl⟩

theorem General.Holds.set? {g g' : General} {given : List (GeneralOption × String)}
    {o : GeneralOption} {value : String} (h : g.Holds given) (hset : g.set? o value = some g') :
    g'.Holds (given ++ [(o, value)]) := by
  obtain ⟨hconfig, hlogLevel⟩ := h
  cases o with
  | config =>
    obtain ⟨hnone, hset⟩ := eq_none_of_ite hset
    obtain rfl := Option.some.inj hset
    constructor
    · simp [valuesOf_concat, hconfig, hnone]
    · simp [valuesOf_concat, hlogLevel]
  | logLevel =>
    obtain ⟨hnone, hset⟩ := eq_none_of_ite hset
    obtain rfl := Option.some.inj hset
    constructor
    · simp [valuesOf_concat, hconfig]
    · simp [valuesOf_concat, hlogLevel, hnone]

theorem General.eq_nil_of_attached?_eq_none {rest : List Char} (h : attached? rest = none) :
    rest = [] := by
  unfold attached? at h
  split at h
  · rfl
  · cases h
  · cases h

/-- The value that stands in the word of a letter does so after an equality sign, or at once. -/
theorem General.attached?_eq_some {rest : List Char} {value : String}
    (h : attached? rest = some value) :
    rest = '=' :: value.toList ∨
      rest = value.toList ∧ value ≠ "" ∧ value.toList.head? ≠ some '=' := by
  unfold attached? at h
  split at h
  · cases h
  · next cs =>
    obtain rfl := Option.some.inj h
    exact .inl (by rw [String.toList_ofList])
  · next hne hequal =>
    obtain rfl := Option.some.inj h
    refine .inr ⟨String.toList_ofList.symm, fun hempty => hne ?_, fun hhead => ?_⟩
    · simpa using hempty
    · rw [String.toList_ofList] at hhead
      obtain ⟨cs, rfl⟩ := List.head?_eq_some_iff.1 hhead
      exact hequal cs rfl

/-- Reading the words up to the command adds what they give to what was given before. -/
theorem General.words_of_read {g g' : General} {due : Option GeneralOption}
    {words later : List String} {before : List (GeneralOption × String)}
    (hread : g.read due words = .ok (g', later)) (hbefore : g.Holds before) :
    ∃ given, Words due given words later ∧ g'.Holds (before ++ given) := by
  -- named are the cases in which the reading goes on or ends well; the others give no result
  fun_induction General.read g due words generalizing before with
  | case2 g text words o value hword g'' hset ih =>
    obtain ⟨given, hgiven, hholds⟩ := ih hread (hbefore.set? hset)
    obtain rfl := Word.eq_text hword
    exact ⟨_, .value o (Word.isPlain hword) hgiven, by simpa using hholds⟩
  | case5 g text words hword =>
    obtain ⟨rfl, rfl⟩ := Prod.mk.inj (Except.ok.inj hread)
    obtain rfl := Word.eq_text hword
    exact ⟨[], .command _, by simpa using hbefore⟩
  | case9 g text words name o hname _ _ hword ih =>
    obtain ⟨given, hgiven, hholds⟩ := ih hread hbefore
    obtain rfl := Word.eq_text hword
    obtain rfl := GeneralOption.name_of_ofName? hname
    exact ⟨given, .apart o hgiven, hholds⟩
  | case10 g text words name o value hname g'' hset _ _ hword ih =>
    obtain ⟨given, hgiven, hholds⟩ := ih hread (hbefore.set? hset)
    obtain rfl := Word.eq_text hword
    obtain rfl := GeneralOption.name_of_ofName? hname
    exact ⟨_, .joined o value hgiven, by simpa using hholds⟩
  | case15 g text words rest hword hrest ih =>
    obtain ⟨given, hgiven, hholds⟩ := ih hread hbefore
    obtain rfl := eq_nil_of_attached?_eq_none hrest
    obtain rfl := Word.eq_text hword
    exact ⟨given, .letterApart hgiven, hholds⟩
  | case16 g text words rest hword value hrest g'' hset ih =>
    obtain ⟨given, hgiven, hholds⟩ := ih hread (hbefore.set? hset)
    obtain rfl := Word.eq_text hword
    refine ⟨(.config, value) :: given, ?_, by simpa using hholds⟩
    rcases attached?_eq_some hrest with rfl | ⟨rfl, hvalue⟩
    · have htext : (Word.short 'c' ('=' :: value.toList)).text = "-c=" ++ value := by
        simp [Word.text, ← String.toList_inj]
      rw [htext]
      exact .letterEqual value hgiven
    · have htext : (Word.short 'c' value.toList).text = "-c" ++ value := by
        simp [Word.text, ← String.toList_inj]
      rw [htext]
      exact .letterJoined hvalue hgiven
  | _ => cases hread

/-! ### The command -/

def CheckOption.name : CheckOption → String
  | rules => "rules"
  | repo => "repo"
  | user => "user"

def Flag.name : Flag → String
  | internal => "internal"
  | anonymous => "anonymous"
  | enforce => "enforce"
  | noEnforce => "no-enforce"
  | json => "json"

theorem CheckOption.name_of_ofName? {name : String} {o : CheckOption} (h : ofName? name = some o) :
    o.name = name := by
  unfold ofName? at h
  split at h <;> cases h <;> rfl

theorem Flag.name_of_ofName? {name : String} {flag : Flag} (h : ofName? name = some flag) :
    flag.name = name := by
  unfold ofName? at h
  split at h <;> cases h <;> rfl

/-- What a command is made of. -/
inductive Item where
  | option (o : CheckOption) (value : String)
  | flag (flag : Flag)
  | path (text : String)
  deriving DecidableEq

/-- The words of a command give items. A value for an option may be due; after two dashes all words are
    paths. -/
inductive Command.Words : Option CheckOption → List Item → List String → Prop where
  | nil : Words none [] []
  | paths (texts : List String) : Words none (texts.map .path) ("--" :: texts)
  | value (o : CheckOption) {value : String} (hvalue : IsPlain value) {items : List Item}
      {words : List String} (h : Words none items words) :
      Words (some o) (.option o value :: items) (value :: words)
  | apart (o : CheckOption) {items : List Item} {words : List String}
      (h : Words (some o) items words) : Words none items (("--" ++ o.name) :: words)
  | joined (o : CheckOption) (value : String) {items : List Item} {words : List String}
      (h : Words none items words) :
      Words none (.option o value :: items) (("--" ++ o.name ++ "=" ++ value) :: words)
  | flag (flag : Flag) {items : List Item} {words : List String} (h : Words none items words) :
      Words none (.flag flag :: items) (("--" ++ flag.name) :: words)
  | path {text : String} (htext : IsPlain text) {items : List Item} {words : List String}
      (h : Words none items words) : Words none (.path text :: items) (text :: words)

def Item.valueFor? (o : CheckOption) : Item → Option String
  | option o' value => if o' = o then some value else none
  | _ => none

def Item.path? : Item → Option String
  | path text => some text
  | _ => none

namespace Item

/-- The values given for an option, in order. -/
def valuesFor (o : CheckOption) (items : List Item) : List String :=
  items.filterMap (valueFor? o)

/-- The paths given, in order. -/
def pathsOf (items : List Item) : List String :=
  items.filterMap path?

@[simp] theorem valuesFor_concat (o : CheckOption) (items : List Item) (i : Item) :
    valuesFor o (items ++ [i]) = valuesFor o items ++ (i.valueFor? o).toList := by
  rw [valuesFor, List.filterMap_append]
  cases h : i.valueFor? o <;> simp [valuesFor, h]

@[simp] theorem pathsOf_concat (items : List Item) (i : Item) :
    pathsOf (items ++ [i]) = pathsOf items ++ i.path?.toList := by
  rw [pathsOf, List.filterMap_append]
  cases h : i.path? <;> simp [pathsOf, h]

@[simp] theorem valuesFor_append_paths (o : CheckOption) (items : List Item) (texts : List String) :
    valuesFor o (items ++ texts.map .path) = valuesFor o items := by
  have hnone : (texts.map Item.path).filterMap (valueFor? o) = [] := by
    rw [List.filterMap_map]
    exact List.filterMap_eq_nil_iff.2 fun _ _ => rfl
  rw [valuesFor, List.filterMap_append, hnone, List.append_nil]
  rfl

@[simp] theorem pathsOf_append_paths (items : List Item) (texts : List String) :
    pathsOf (items ++ texts.map .path) = pathsOf items ++ texts := by
  have hall : (texts.map Item.path).filterMap path? = texts := by
    rw [List.filterMap_map]
    exact List.filterMap_some
  rw [pathsOf, List.filterMap_append, hall]
  rfl

end Item

/-- The command asks for what the items give. The rules and the repository are given once and a path at
    least once. The actor is the system or the user named, or nobody if neither is named; enforcement is
    forced one way, or left to the settings. -/
structure Command.Holds (c : Command) (items : List Item) : Prop where
  rules : Item.valuesFor .rules items = [c.rules]
  repo : Item.valuesFor .repo items = [c.repo]
  paths : Item.pathsOf items = c.paths
  paths_ne_nil : c.paths ≠ []
  system : .flag .internal ∈ items → c.actor = .system
  user : ∀ text ∈ Item.valuesFor .user items, ∃ user, user? text = some user ∧ c.actor = .ofUser user
  anonymous : .flag .internal ∉ items → Item.valuesFor .user items = [] → c.actor = .anonymous
  enforced : .flag .enforce ∈ items → c.enforced? = some true
  unenforced : .flag .noEnforce ∈ items → c.enforced? = some false
  unforced : .flag .enforce ∉ items → .flag .noEnforce ∉ items → c.enforced? = none
  json : c.json = true ↔ .flag .json ∈ items

namespace Draft

/-- The draft holds what the items give, of which there is at most one for each option. -/
structure Holds (d : Draft) (items : List Item) : Prop where
  rules : Item.valuesFor .rules items = d.rules?.toList
  repo : Item.valuesFor .repo items = d.repo?.toList
  user : (Item.valuesFor .user items).map CommandLine.user? = d.user?.toList.map some
  flags : ∀ flag, flag ∈ d.flags ↔ .flag flag ∈ items
  paths : Item.pathsOf items = d.paths.reverse

theorem holds_empty : empty.Holds [] := by
  constructor <;> simp [empty, Item.valuesFor, Item.pathsOf]

namespace Holds

variable {d d' : Draft} {items : List Item}

theorem set? {o : CheckOption} {value : String} (h : d.Holds items)
    (hset : d.set? o value = some d') : d'.Holds (items ++ [.option o value]) := by
  obtain ⟨hrules, hrepo, huser, hflags, hpaths⟩ := h
  cases o with
  | rules =>
    obtain ⟨hnone, hset⟩ := eq_none_of_ite hset
    obtain rfl := Option.some.inj hset
    constructor <;> simp [Item.valueFor?, Item.path?, hnone, hrules, hrepo, huser, hflags, hpaths]
  | repo =>
    obtain ⟨hnone, hset⟩ := eq_none_of_ite hset
    obtain rfl := Option.some.inj hset
    constructor <;> simp [Item.valueFor?, Item.path?, hnone, hrules, hrepo, huser, hflags, hpaths]
  | user =>
    obtain ⟨hnone, hset⟩ := eq_none_of_ite hset
    obtain ⟨user, hvalue, rfl⟩ := Option.map_eq_some_iff.1 hset
    constructor <;>
      simp [Item.valueFor?, Item.path?, hnone, hvalue, hrules, hrepo, huser, hflags, hpaths]

theorem raise? {flag : Flag} (h : d.Holds items) (hraise : d.raise? flag = some d') :
    d'.Holds (items ++ [.flag flag]) := by
  obtain ⟨hrules, hrepo, huser, hflags, hpaths⟩ := h
  rw [Draft.raise?] at hraise
  split at hraise
  · cases hraise
  · obtain rfl := Option.some.inj hraise
    constructor <;>
      simp [Item.valueFor?, Item.path?, hrules, hrepo, huser, hflags, hpaths, or_comm]

theorem addPaths (h : d.Holds items) (paths : List String) :
    (d.addPaths paths).Holds (items ++ paths.map .path) := by
  obtain ⟨hrules, hrepo, huser, hflags, hpaths⟩ := h
  constructor <;> simp [Draft.addPaths, hrules, hrepo, huser, hflags, hpaths]

end Holds

/-- A draft that is finished has rules, a repository and a path, at most one actor, and enforcement not
    asked for both ways. -/
theorem finish?_eq_some {d : Draft} {c : Command} (h : d.finish? = some c) :
    d.rules? = some c.rules ∧ d.repo? = some c.repo ∧ d.paths.reverse = c.paths ∧ c.paths ≠ [] ∧
      d.actorCount ≤ 1 ∧ ¬ (.enforce ∈ d.flags ∧ .noEnforce ∈ d.flags) ∧ c.actor = d.actor ∧
      c.enforced? = d.enforced? ∧ c.json = d.flags.contains .json := by
  unfold finish? at h
  obtain ⟨rules, hrules, h⟩ := Option.bind_eq_some_iff.1 h
  obtain ⟨repo, hrepo, h⟩ := Option.bind_eq_some_iff.1 h
  dsimp only at h
  by_cases hcount : (d.paths.isEmpty || Decidable.decide (1 < d.actorCount)) = true
  · rw [if_pos hcount] at h
    cases h
  · rw [if_neg hcount] at h
    by_cases hforced : (d.flags.contains .enforce && d.flags.contains .noEnforce) = true
    · rw [if_pos hforced] at h
      cases h
    · rw [if_neg hforced] at h
      obtain rfl := Option.some.inj h
      simp only [Bool.or_eq_true, List.isEmpty_iff, decide_eq_true_eq, not_or, Nat.not_lt] at hcount
      refine ⟨hrules, hrepo, rfl, ?_, hcount.2, ?_, rfl, rfl, rfl⟩
      · simpa using hcount.1
      · simpa using hforced

/-- At most one actor is named, so no user is if the system is. -/
theorem user?_eq_none {d : Draft} (h : d.actorCount ≤ 1) (hinternal : .internal ∈ d.flags) :
    d.user? = none := by
  have hmem : Flag.internal ∈ d.flags.filter fun flag => flag == .internal || flag == .anonymous := by
    simp [hinternal]
  have hpos := List.length_pos_of_mem hmem
  rw [actorCount] at h
  by_contra hsome
  rw [if_pos (Option.isSome_iff_ne_none.2 hsome)] at h
  omega

namespace Holds

variable {d : Draft} {items : List Item} {c : Command}

/-- A draft that is finished makes the command that its items ask for. -/
theorem finish? (h : d.Holds items) (hfinish : d.finish? = some c) : c.Holds items := by
  obtain ⟨hrules, hrepo, huser, hflags, hpaths⟩ := h
  obtain ⟨hrules', hrepo', hpaths', hne, hcount, hforced, hactor, henforced, hjson⟩ :=
    finish?_eq_some hfinish
  rw [hflags, hflags] at hforced
  constructor
  · rw [hrules, hrules', Option.toList_some]
  · rw [hrepo, hrepo', Option.toList_some]
  · rw [hpaths, hpaths']
  · exact hne
  · intro hinternal
    rw [hactor, Draft.actor, if_pos (by simpa [hflags] using hinternal)]
  · intro text htext
    cases huser? : d.user? with
    | none =>
      have hnone : Item.valuesFor .user items = [] := by simpa [huser?] using huser
      simp [hnone] at htext
    | some user =>
      have hinternal : .internal ∉ d.flags := fun hmem => by
        rw [user?_eq_none hcount hmem] at huser?
        cases huser?
      have hread : CommandLine.user? text = some user := by
        have hmem := List.mem_map_of_mem (f := CommandLine.user?) htext
        simpa [huser, huser?] using hmem
      refine ⟨user, hread, ?_⟩
      rw [hactor, Draft.actor, if_neg (by simpa using hinternal), huser?]
  · intro hinternal hnone
    have huser? : d.user? = none := by simpa [hnone] using huser
    rw [hactor, Draft.actor, if_neg (by simpa [hflags] using hinternal), huser?]
  · intro henforce
    rw [henforced, Draft.enforced?, if_pos (by simpa [hflags] using henforce)]
  · intro hno
    have henforce : .flag .enforce ∉ items := fun henforce => hforced ⟨henforce, hno⟩
    rw [henforced, Draft.enforced?, if_neg (by simpa [hflags] using henforce),
      if_pos (by simpa [hflags] using hno)]
  · intro henforce hno
    rw [henforced, Draft.enforced?, if_neg (by simpa [hflags] using henforce),
      if_neg (by simpa [hflags] using hno)]
  · rw [hjson, List.contains_iff_mem, hflags]

end Holds

theorem orUsage_eq_ok {α : Type} {x : Option α} {a : α} (h : orUsage x = .ok a) : x = some a := by
  cases x with
  | none => cases h
  | some b => rw [Except.ok.inj h]

/-- Reading the words of a command adds the items that they give to those given before. -/
theorem words_of_read {d : Draft} {due : Option CheckOption} {words : List String} {c : Command}
    {before : List Item} (hread : d.read due words = .ok c) (hbefore : d.Holds before) :
    ∃ items, Command.Words due items words ∧ c.Holds (before ++ items) := by
  -- every word that is taken adds its item at the end of those before, as the draft holds them
  fun_induction Draft.read d due words generalizing before with
  | case2 d due hdue =>
    obtain rfl := Option.not_isSome_iff_eq_none.1 hdue
    have hfinish := orUsage_eq_ok hread
    exact ⟨[], .nil, by simpa using hbefore.finish? hfinish⟩
  | case3 d text words o value hword d' hset ih =>
    obtain ⟨items, hitems, hholds⟩ := ih hread (hbefore.set? hset)
    obtain rfl := Word.eq_text hword
    exact ⟨_, .value o (Word.isPlain hword) hitems, by simpa using hholds⟩
  | case6 d text words path hword ih =>
    obtain ⟨items, hitems, hholds⟩ := ih hread (hbefore.addPaths [path])
    obtain rfl := Word.eq_text hword
    exact ⟨_, .path (Word.isPlain hword) hitems, by simpa using hholds⟩
  | case7 d text words hword =>
    obtain rfl := Word.eq_text hword
    exact ⟨_, .paths words, (hbefore.addPaths words).finish? (orUsage_eq_ok hread)⟩
  | case11 d text words name o hname _ hword ih =>
    obtain ⟨items, hitems, hholds⟩ := ih hread hbefore
    obtain rfl := Word.eq_text hword
    obtain rfl := CheckOption.name_of_ofName? hname
    exact ⟨items, .apart o hitems, hholds⟩
  | case12 d text words name o value hname d' hset _ hword ih =>
    obtain ⟨items, hitems, hholds⟩ := ih hread (hbefore.set? hset)
    obtain rfl := Word.eq_text hword
    obtain rfl := CheckOption.name_of_ofName? hname
    exact ⟨_, .joined o value hitems, by simpa using hholds⟩
  | case14 d text words name flag hname _ d' hraise _ hword ih =>
    obtain ⟨items, hitems, hholds⟩ := ih hread (hbefore.raise? hraise)
    obtain rfl := Word.eq_text hword
    obtain rfl := Flag.name_of_ofName? hname
    exact ⟨_, .flag flag hitems, by simpa using hholds⟩
  | _ => cases hread

end Draft

/-- A command line that is read is made of options, then the word for the command, and then its items,
    and asks for what they give. -/
theorem words_of_parse {words : List String} {general : General} {command : Command}
    (h : parse words = .ok (general, command)) :
    ∃ given items later, General.Words none given words later ∧ general.Holds given ∧
      Command.Words none items later ∧ command.Holds items := by
  unfold parse at h
  cases hgeneral : General.empty.read none words with
  | error stop =>
    rw [hgeneral] at h
    cases h
  | ok result =>
    obtain ⟨g, later⟩ := result
    rw [hgeneral] at h
    cases hcommand : Draft.empty.read none later with
    | error stop =>
      simp [hcommand, bind, Except.bind] at h
    | ok c =>
      simp only [hcommand, bind, Except.bind, pure, Except.pure, Except.ok.injEq,
        Prod.mk.injEq] at h
      obtain ⟨rfl, rfl⟩ := h
      obtain ⟨given, hgiven, hholds⟩ := General.words_of_read hgeneral General.holds_empty
      obtain ⟨items, hitems, hasks⟩ := Draft.words_of_read hcommand Draft.holds_empty
      exact ⟨given, items, later, hgiven, hholds, hitems, hasks⟩

end PathGuard.CommandLine
