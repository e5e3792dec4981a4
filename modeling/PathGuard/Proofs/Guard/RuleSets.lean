import PathGuard.Proofs.Guard.Provenance

/-!
# Rules as sets

What rules say of a path is told by which patterns each side has: neither their order nor how often one
of them is listed makes a difference, except for which pattern is named where one is refused. A further
exclude can only hide, and a further include can only show.

## Main definitions

- `PathRules.SameLists`: rules that have the same patterns on each side
- `Guard.IsRefused`: answers of checks that fail for a pattern

## Main results

- `PathRules.Grant.mono`: what more includes and fewer excludes show
- `Guard.answer_check_of_ruleSets`: how the answers of checks under two rule sets compare
-/

namespace PathGuard

namespace PathRules

variable {rules rules' : PathRules} {qualified relative : String}

/-- Rules that have the same patterns on each side, in whatever order and however often. -/
def SameLists (rules rules' : PathRules) : Prop :=
  (∀ pattern, pattern ∈ rules.includes ↔ pattern ∈ rules'.includes) ∧
    ∀ pattern, pattern ∈ rules.excludes ↔ pattern ∈ rules'.excludes

instance (rules rules' : PathRules) : Decidable (rules.SameLists rules') :=
  decidable_of_iff
    ((rules.includes ⊆ rules'.includes ∧ rules'.includes ⊆ rules.includes) ∧
      rules.excludes ⊆ rules'.excludes ∧ rules'.excludes ⊆ rules.excludes)
    (by simp only [SameLists, iff_iff_implies_and_implies, forall_and, List.subset_def])

theorem SameLists.symm (h : rules.SameLists rules') : rules'.SameLists rules :=
  ⟨fun pattern => (h.1 pattern).symm, fun pattern => (h.2 pattern).symm⟩

theorem Compile.of_sameLists (hcompile : rules.Compile) (h : rules.SameLists rules') :
    rules'.Compile := by
  intro pattern hpattern
  refine hcompile pattern ?_
  rw [List.mem_append] at hpattern ⊢
  exact hpattern.imp (h.1 pattern).2 (h.2 pattern).2

/-- Rules go on showing a path with more includes and fewer excludes. -/
theorem Grant.mono (hgrant : rules.Grant qualified relative)
    (hincludes : rules.includes ⊆ rules'.includes) (hexcludes : rules'.excludes ⊆ rules.excludes) :
    rules'.Grant qualified relative := by
  obtain ⟨hnone, pattern, hpattern, hhits⟩ := hgrant
  exact ⟨fun exclude hexclude => hnone exclude (hexcludes hexclude),
    pattern, hincludes hpattern, hhits⟩

theorem Grant.of_sameLists (hgrant : rules.Grant qualified relative) (h : rules.SameLists rules') :
    rules'.Grant qualified relative :=
  hgrant.mono (fun pattern => (h.1 pattern).1) fun pattern => (h.2 pattern).2

theorem subset_insert (before after : List String) (pattern : String) :
    before ++ after ⊆ before ++ pattern :: after :=
  ((List.sublist_cons_self pattern after).append_left before).subset

theorem Compile.insert_exclude (hcompile : rules.Compile) {before after : List String}
    {pattern : String} (hcut : rules.excludes = before ++ after) (hpattern : Glob.Compiles pattern) :
    Compile { rules with excludes := before ++ pattern :: after } := by
  rw [Compile, hcut] at hcompile
  simp only [Compile, List.forall_mem_append, List.forall_mem_cons] at hcompile ⊢
  exact ⟨hcompile.1, hcompile.2.1, hpattern, hcompile.2.2⟩

theorem Compile.insert_include (hcompile : rules.Compile) {before after : List String}
    {pattern : String} (hcut : rules.includes = before ++ after) (hpattern : Glob.Compiles pattern) :
    Compile { rules with includes := before ++ pattern :: after } := by
  rw [Compile, hcut] at hcompile
  simp only [Compile, List.forall_mem_append, List.forall_mem_cons] at hcompile ⊢
  exact ⟨⟨hcompile.1.1, hpattern, hcompile.1.2⟩, hcompile.2⟩

end PathRules

theorem Matcher.exists_of_ofRules_eq_error {rules : PathRules} {fault : CheckFault}
    (h : ofRules rules = .error fault) :
    ∃ side pattern reason, fault = .refusedPattern side pattern reason := by
  have hside : ∀ {side : RuleSide} {patterns : List String},
      Glob.compileAll side patterns = .error fault →
        ∃ side pattern reason, fault = .refusedPattern side pattern reason := by
    intro side patterns hall
    obtain ⟨-, pattern, -, flaw, -, -, -, hfault⟩ := (Glob.compileAll_eq_error_iff side).1 hall
    exact ⟨side, pattern, flaw.message, hfault⟩
  rcases ofRules_eq_error_iff.1 h with hall | ⟨-, hall⟩
  · exact hside hall
  · exact hside hall

namespace Guard

variable {guard guard' : Guard} {user : UserId} {repo : RepoName} {rules rules' : PathRules}

/-- The answer of a check that fails because a pattern is refused. -/
def IsRefused (answer : Except CheckFault Permission) : Prop :=
  ∃ side pattern reason, answer = .error (.refusedPattern side pattern reason)

/-- A user whose rules are not read is refused an answer on every path. -/
theorem isRefused_answer_check (henforced : guard.enforced = true)
    (h : guard.HasRules user repo rules) (hcompile : ¬ rules.Compile) (path : String) :
    IsRefused ((check user repo path).answer guard) := by
  rw [answer_check, standingOf_of_hasRules henforced h]
  cases hm : Matcher.ofRules rules with
  | ok m => exact absurd (Matcher.exists_ofRules_iff.1 ⟨m, hm⟩) hcompile
  | error fault =>
    obtain ⟨side, pattern, reason, rfl⟩ := Matcher.exists_of_ofRules_eq_error hm
    exact ⟨side, pattern, reason, rfl⟩

/-- Where the rules of one state show a path only if those of another do, so do the answers, and the
    other way round for what is hidden. -/
theorem answer_check_mono (henforced : guard.enforced = true) (henforced' : guard'.enforced = true)
    (h : guard.HasRules user repo rules) (h' : guard'.HasRules user repo rules')
    (hcompile : rules.Compile) (hcompile' : rules'.Compile) (path : String)
    (hgrant : rules.Grant (Path.join [repo, path]) (Path.join [path]) →
      rules'.Grant (Path.join [repo, path]) (Path.join [path])) :
    ((check user repo path).answer guard = .ok .read →
      (check user repo path).answer guard' = .ok .read) ∧
    ((check user repo path).answer guard' = .ok .none →
      (check user repo path).answer guard = .ok .none) := by
  obtain ⟨htotal, hread⟩ := answer_check_of_hasRules henforced h hcompile path
  obtain ⟨-, hread'⟩ := answer_check_of_hasRules henforced' h' hcompile' path
  have hmono : (check user repo path).answer guard = .ok .read →
      (check user repo path).answer guard' = .ok .read :=
    fun hshown => hread'.2 (hgrant (hread.1 hshown))
  refine ⟨hmono, fun hhidden => htotal.resolve_left fun hshown => ?_⟩
  rw [hmono hshown] at hhidden
  cases hhidden

/-- Under rules with the same patterns a check is refused both times, or gives the same permission. -/
theorem answer_check_of_sameLists (henforced : guard.enforced = true)
    (henforced' : guard'.enforced = true) (h : guard.HasRules user repo rules)
    (h' : guard'.HasRules user repo rules') (hsame : rules.SameLists rules') (path : String) :
    IsRefused ((check user repo path).answer guard) ∧
        IsRefused ((check user repo path).answer guard') ∨
      ∃ permission, (check user repo path).answer guard = .ok permission ∧
        (check user repo path).answer guard' = .ok permission := by
  by_cases hcompile : rules.Compile
  · have hcompile' := hcompile.of_sameLists hsame
    rcases (answer_check_of_hasRules henforced h hcompile path).1 with hshown | hhidden
    · refine .inr ⟨.read, hshown, ?_⟩
      exact (answer_check_mono henforced henforced' h h' hcompile hcompile' path
        fun hgrant => hgrant.of_sameLists hsame).1 hshown
    · refine .inr ⟨.none, hhidden, ?_⟩
      exact (answer_check_mono henforced' henforced h' h hcompile' hcompile path
        fun hgrant => hgrant.of_sameLists hsame.symm).2 hhidden
  · have hcompile' : ¬ rules'.Compile := fun hall => hcompile (hall.of_sameLists hsame.symm)
    exact .inl ⟨isRefused_answer_check henforced h hcompile path,
      isRefused_answer_check henforced' h' hcompile' path⟩

theorem answer_check_zero (henforced : guard.enforced = true) (repo : RepoName) (path : String) :
    (check 0 repo path).answer guard = .error .unauthenticated := by
  rw [answer_check, standingOf, henforced]
  rfl

/-- The answers of checks under two rule sets of a user. If these have the same patterns, both checks are
    refused or both give the same permission. If the rules of the first state are read, then a further
    exclude anywhere in the list keeps hidden what was hidden, and a further include anywhere keeps shown
    what was shown. The user number that belongs to nobody is turned away before rules are looked up. -/
theorem answer_check_of_ruleSets (henforced : guard.enforced = true)
    (henforced' : guard'.enforced = true) (h : guard.HasRules user repo rules)
    (h' : guard'.HasRules user repo rules') (path : String) :
    (rules.SameLists rules' →
      IsRefused ((check user repo path).answer guard) ∧
          IsRefused ((check user repo path).answer guard') ∨
        ∃ permission, (check user repo path).answer guard = .ok permission ∧
          (check user repo path).answer guard' = .ok permission) ∧
    (∀ before after pattern, rules.Compile → Glob.Compiles pattern →
      (rules.excludes = before ++ after →
        rules' = { rules with excludes := before ++ pattern :: after } →
        (check user repo path).answer guard = .ok .none →
        (check user repo path).answer guard' = .ok .none) ∧
      (rules.includes = before ++ after →
        rules' = { rules with includes := before ++ pattern :: after } →
        (check user repo path).answer guard = .ok .read →
        (check user repo path).answer guard' = .ok .read)) ∧
    ((check 0 repo path).answer guard = .error .unauthenticated ∧
      (check 0 repo path).answer guard' = .error .unauthenticated) := by
  refine ⟨fun hsame => answer_check_of_sameLists henforced henforced' h h' hsame path,
    fun before after pattern hcompile hpattern => ⟨?_, ?_⟩,
    answer_check_zero henforced repo path, answer_check_zero henforced' repo path⟩
  · rintro hcut rfl
    refine (answer_check_mono henforced' henforced h' h (hcompile.insert_exclude hcut hpattern)
      hcompile path fun hgrant => hgrant.mono (List.Subset.refl _) ?_).2
    rw [hcut]
    exact PathRules.subset_insert before after pattern
  · rintro hcut rfl
    refine (answer_check_mono henforced henforced' h h' hcompile
      (hcompile.insert_include hcut hpattern) path fun hgrant => hgrant.mono ?_
        (List.Subset.refl _)).1
    rw [hcut]
    exact PathRules.subset_insert before after pattern

/-- Rules that show the sources of a repository and its notes, but not what is generated. -/
def sourceRules : PathRules :=
  ⟨["r/src/**", "r/*.md"], ["r/src/gen/*"]⟩

theorem answer_check_of_ruleSets_sources :
    (∃ permission, (check 5 "r" "src/a.rs").answer (only 5 "r" sourceRules) = .ok permission ∧
      (check 5 "r" "src/a.rs").answer (only 5 "r"
        ⟨["r/*.md", "r/src/**", "r/*.md"], ["r/src/gen/*", "r/src/gen/*"]⟩) = .ok permission) ∧
    (check 5 "r" "src/gen/a.rs").answer (only 5 "r"
      ⟨["r/src/**", "r/*.md"], ["**/*.tmp", "r/src/gen/*"]⟩) = .ok .none ∧
    (check 5 "r" "src/a.rs").answer (only 5 "r"
      ⟨["r/src/**", "r/lib/**", "r/*.md"], ["r/src/gen/*"]⟩) = .ok .read := by
  have hhas : ∀ rules, (only 5 "r" rules).HasRules 5 "r" rules := only_hasRules (by decide) "r"
  have hcompile : sourceRules.Compile := Matcher.exists_ofRules_iff.1 ⟨_, rfl⟩
  have hshown : (check 5 "r" "src/a.rs").answer (only 5 "r" sourceRules) = .ok .read := by
    decide +kernel
  have hhidden : (check 5 "r" "src/gen/a.rs").answer (only 5 "r" sourceRules) = .ok .none := by
    decide +kernel
  refine ⟨?_, ?_, ?_⟩
  · refine Or.resolve_left
      ((answer_check_of_ruleSets rfl rfl (hhas _) (hhas _) "src/a.rs").1 (by decide)) ?_
    rintro ⟨⟨side, pattern, reason, hrefused⟩, -⟩
    rw [hshown] at hrefused
    cases hrefused
  · exact ((answer_check_of_ruleSets rfl rfl (hhas sourceRules) (hhas _) "src/gen/a.rs").2.1
      [] ["r/src/gen/*"] "**/*.tmp" hcompile ⟨_, rfl⟩).1 rfl rfl hhidden
  · exact ((answer_check_of_ruleSets rfl rfl (hhas sourceRules) (hhas _) "src/a.rs").2.1
      ["r/src/**"] ["r/*.md"] "r/lib/**" hcompile ⟨_, rfl⟩).2 rfl rfl hshown

end Guard

end PathGuard
