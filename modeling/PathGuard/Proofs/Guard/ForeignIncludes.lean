import PathGuard.Proofs.Guard.Provenance
import PathGuard.Proofs.Rules.Subtree

/-!
# Includes that are not of the repository

An include that is written without the repository, or with the name of another one, should show
nothing. It does so as long as the path stays below the first name of the repository. A path that goes
up through all names of the repository is joined to one that the repository has no part in, and such
an include then shows it.

## Main definitions

- `Directory.IsForeignTo`: directories that begin with another name than the repository

## Main results

- `Guard.answer_check_foreign_includes`: what such includes show
- `Guard.answer_check_foreign_include_shows`: a path outside of the repository that one of them shows
-/

namespace PathGuard

/-- A directory other than the root that begins with another name. -/
structure Path.Directory.IsForeignTo (d repo : Path.Directory) : Prop where
  names_ne_nil : d.names ≠ []
  isPlain : d.IsPlain
  head?_ne : d.names.head? ≠ repo.names.head?

namespace Guard

open PathGuard.Path (Directory LeavesRoot join)
open PathGuard.PathRules (compile_subtrees grant_subtrees_iff)

variable {guard : Guard} {user : UserId} {repo : Directory} {dirs : List Directory}
  {excludes : List String}

/-- Includes that are not of the repository show a path just when the path leads out of the repository
    and below one of them, and is not hidden there. A path that does not go up through all names of the
    repository is not shown. -/
theorem answer_check_foreign_includes (hrepo : repo.names ≠ [])
    (hforeign : ∀ d ∈ dirs, d.IsForeignTo repo)
    (hexcludes : ∀ pattern ∈ excludes, Glob.Compiles pattern) (henforced : guard.enforced = true)
    (hrules : guard.HasRules user repo.text ⟨dirs.map Directory.subtree, excludes⟩) (path : String) :
    ((check user repo.text path).answer guard = .ok .none ↔
      ¬ ((∃ d ∈ dirs, d.Above (join [repo.text, path])) ∧
        ∀ pattern ∈ excludes, ¬ Glob.Hits pattern (join [repo.text, path]) ∧
          ¬ Glob.Hits pattern (join [path]))) ∧
    ((check user repo.text path).answer guard = .ok .none ∨
      (check user repo.text path).answer guard = .ok .read ∧ LeavesRoot repo.names path) := by
  have hplain : ∀ d ∈ dirs, d.IsPlain := fun d hd => (hforeign d hd).isPlain
  obtain ⟨htotal, hread⟩ :=
    answer_check_of_hasRules henforced hrules (compile_subtrees hplain hexcludes) path
  have hnone : (check user repo.text path).answer guard = .ok .none ↔
      ¬ (check user repo.text path).answer guard = .ok .read := by
    rcases htotal with h | h <;> simp [h]
  refine ⟨by rw [hnone, hread, grant_subtrees_iff hplain], ?_⟩
  rcases htotal with h | h
  · refine .inr ⟨h, ?_⟩
    obtain ⟨⟨d, hd, habove⟩, -⟩ := (grant_subtrees_iff hplain _ _).1 (hread.1 h)
    by_contra hstays
    exact (hforeign d hd).head?_ne
      (Directory.head?_eq_of_above_join hrepo (hforeign d hd).names_ne_nil hstays habove)
  · exact .inl h

theorem answer_check_foreign_include_hides :
    (check 5 "r" "docs/a.md").answer (only 5 "r" ⟨["docs/**"], []⟩) = .ok .none := by
  let repo : Directory := ⟨["r".toList], by decide⟩
  let docs : Directory := ⟨["docs".toList], by decide⟩
  have hrepo : repo.text = "r" := by decide
  have hdocs : [docs].map Directory.subtree = ["docs/**"] := by decide
  have hforeign : ∀ d ∈ [docs], d.IsForeignTo repo := by
    simp only [List.mem_singleton, forall_eq]
    exact ⟨by decide, by decide, by decide⟩
  have hrules : (only 5 "r" ⟨["docs/**"], []⟩).HasRules 5 repo.text
      ⟨[docs].map Directory.subtree, []⟩ := by
    rw [hrepo, hdocs]
    exact only_hasRules (by decide) "r" ⟨["docs/**"], []⟩
  have hbelow : ¬ ∃ d ∈ [docs], d.Above (join [repo.text, "docs/a.md"]) := by decide
  rw [← hrepo]
  exact (answer_check_foreign_includes (by decide) hforeign (by simp) rfl hrules "docs/a.md").1.2
    fun h => hbelow h.1

/-- A path that leads out of the repository is shown by the include of the directory that it leads
    to. -/
theorem answer_check_foreign_include_shows :
    ∃ (guard : Guard) (user : UserId) (repo : Directory) (dirs : List Directory) (path : String),
      repo.names ≠ [] ∧ (∀ d ∈ dirs, d.IsForeignTo repo) ∧ guard.enforced = true ∧
        guard.HasRules user repo.text ⟨dirs.map Directory.subtree, []⟩ ∧
        (check user repo.text path).answer guard = .ok .read := by
  let repo : Directory := ⟨["r".toList], by decide⟩
  let docs : Directory := ⟨["docs".toList], by decide⟩
  have hforeign : ∀ d ∈ [docs], d.IsForeignTo repo := by
    simp only [List.mem_singleton, forall_eq]
    exact ⟨by decide, by decide, by decide⟩
  refine ⟨only 5 repo.text ⟨[docs].map Directory.subtree, []⟩, 5, repo, [docs], "../docs/a.md",
    by decide, hforeign, rfl, only_hasRules (by decide) _ _, ?_⟩
  decide +kernel

end Guard

end PathGuard
