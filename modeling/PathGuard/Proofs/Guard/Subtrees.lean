import PathGuard.Proofs.Guard.Provenance
import PathGuard.Proofs.Rules.Subtree

/-!
# Rules that list directories

Rules whose patterns are subtrees of directories show a path by where it lies: below one of the
included directories under its qualified spelling, and below none of the excluded ones under either
spelling. Such rules are always read, so that a check of a user who has them does not fail.

## Main results

- `Guard.answer_check_subtrees`: what such rules show of any path
-/

namespace PathGuard

open PathGuard.Path (Directory join)

theorem PathRules.compile_subtrees_subtrees {includes excludes : List Directory}
    (hincludes : ∀ d ∈ includes, d.IsPlain) (hexcludes : ∀ d ∈ excludes, d.IsPlain) :
    Compile ⟨includes.map Directory.subtree, excludes.map Directory.subtree⟩ := by
  refine compile_subtrees hincludes fun pattern hpattern => ?_
  obtain ⟨d, hd, rfl⟩ := List.mem_map.1 hpattern
  exact Directory.compiles_subtree (hexcludes d hd)

theorem PathRules.grant_subtrees_subtrees_iff {includes excludes : List Directory}
    (hincludes : ∀ d ∈ includes, d.IsPlain) (hexcludes : ∀ d ∈ excludes, d.IsPlain)
    (qualified relative : String) :
    Grant ⟨includes.map Directory.subtree, excludes.map Directory.subtree⟩ qualified relative ↔
      (∃ d ∈ includes, d.Above qualified) ∧
        ∀ d ∈ excludes, ¬ d.Above qualified ∧ ¬ d.Above relative := by
  rw [grant_subtrees_iff hincludes, List.forall_mem_map]
  refine and_congr_right fun _ => forall₂_congr fun d hd => ?_
  rw [Directory.hits_subtree_iff (hexcludes d hd), Directory.hits_subtree_iff (hexcludes d hd)]

namespace Guard

variable {guard : Guard} {user : UserId} {repo : RepoName} {includes excludes : List Directory}

/-- A user whose rules list directories may read what lies below an included one and below no excluded
    one, and nothing else, however the path is written. -/
theorem answer_check_subtrees (hincludes : ∀ d ∈ includes, d.IsPlain)
    (hexcludes : ∀ d ∈ excludes, d.IsPlain) (henforced : guard.enforced = true)
    (hrules : guard.HasRules user repo
      ⟨includes.map Directory.subtree, excludes.map Directory.subtree⟩) (path : String) :
    (check user repo path).answer guard =
      .ok (if (∃ d ∈ includes, d.Above (join [repo, path])) ∧
          ∀ d ∈ excludes, ¬ d.Above (join [repo, path]) ∧ ¬ d.Above (join [path])
        then .read else .none) := by
  obtain ⟨htotal, hread⟩ := answer_check_of_hasRules henforced hrules
    (PathRules.compile_subtrees_subtrees hincludes hexcludes) path
  rw [PathRules.grant_subtrees_subtrees_iff hincludes hexcludes] at hread
  split
  · next hshown => exact hread.2 hshown
  · next hhidden => exact htotal.resolve_left fun h => hhidden (hread.1 h)

theorem answer_check_subtrees_src :
    (check 5 "r" "lib/..//src/./a.rs").answer
        (only 5 "r" ⟨["r/src/**"], ["r/src/gen/**", "src/tmp/**"]⟩) = .ok .read ∧
      (check 5 "r" "src//tmp/a.rs").answer
        (only 5 "r" ⟨["r/src/**"], ["r/src/gen/**", "src/tmp/**"]⟩) = .ok .none := by
  let src : Directory := ⟨["r".toList, "src".toList], by decide⟩
  let gen : Directory := ⟨["r".toList, "src".toList, "gen".toList], by decide⟩
  let tmp : Directory := ⟨["src".toList, "tmp".toList], by decide⟩
  have hincludes : ∀ d ∈ [src], d.IsPlain := by decide
  have hexcludes : ∀ d ∈ [gen, tmp], d.IsPlain := by decide
  have hrules : (only 5 "r" ⟨["r/src/**"], ["r/src/gen/**", "src/tmp/**"]⟩).HasRules 5 "r"
      ⟨[src].map Directory.subtree, [gen, tmp].map Directory.subtree⟩ :=
    only_hasRules (by decide) "r" _
  rw [answer_check_subtrees hincludes hexcludes rfl hrules,
    answer_check_subtrees hincludes hexcludes rfl hrules]
  exact ⟨by decide, by decide⟩

end Guard

end PathGuard
