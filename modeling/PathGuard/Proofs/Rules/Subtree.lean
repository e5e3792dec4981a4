import PathGuard.Proofs.Path.Join
import PathGuard.Proofs.Rules.Matching

/-!
# Patterns of directories

The pattern that is spelled as a directory, a slash and two stars matches what lies below the directory
and nothing else, as long as no name of the directory holds a character that a pattern takes for more
than itself.

## Main definitions

- `Directory.IsPlain`: directories whose names stand for themselves in a pattern
- `Directory.subtree`: the pattern of what lies below a directory

## Main results

- `Directory.hits_subtree_iff`: what such a pattern matches
- `PathRules.grant_subtrees_iff`: what rules with such includes show
-/

namespace PathGuard.Path.Directory

def IsPlain (d : Directory) : Prop :=
  ∀ s ∈ d.names, ∀ c ∈ s, Glob.IsPlain c

instance : DecidablePred IsPlain := fun d =>
  -- the characters of the names are gone through, not all characters
  @List.decidableBAll _ (fun s => ∀ c ∈ s, Glob.IsPlain c) (fun s => List.decidableBAll _ s) d.names

/-- The pattern of what lies below a directory. -/
def subtree (d : Directory) : String :=
  d.text ++ "/**"

theorem isPlain_of_mem_text {d : Directory} (hd : d.IsPlain) : ∀ c ∈ d.text.toList, Glob.IsPlain c := by
  rw [text, String.toList_ofList]
  have hslash : Glob.IsPlain '/' := by decide
  have hnames : ∀ s ∈ d.names, ∀ c ∈ s, Glob.IsPlain c := hd
  generalize d.names = names at hnames
  induction names with
  | nil => simp [unsegments]
  | cons s names ih =>
    rw [List.forall_mem_cons] at hnames
    intro c hc
    cases names with
    | nil =>
      rw [unsegments, List.intercalate_singleton] at hc
      exact hnames.1 c hc
    | cons t names =>
      rw [unsegments, List.intercalate_cons_cons, List.append_assoc, List.singleton_append] at hc
      rcases List.mem_append.1 hc with hc | hc
      · exact hnames.1 c hc
      · rcases List.mem_cons.1 hc with rfl | hc
        · exact hslash
        · exact ih hnames.2 c hc

theorem subtree_eq (d : Directory) :
    d.subtree = String.ofList (d.text.toList ++ ['/', '*', '*']) := by
  apply String.toList_inj.1
  rw [subtree, String.toList_append, String.toList_ofList, String.toList_ofList]

/-- The pattern of a plain directory matches what lies below the directory. -/
theorem hits_subtree_iff {d : Directory} (hd : d.IsPlain) {subject : String} :
    Glob.Hits d.subtree subject ↔ d.Above subject := by
  rw [subtree_eq]
  exact Glob.hits_subtree_iff (isPlain_of_mem_text hd)

theorem compiles_subtree {d : Directory} (hd : d.IsPlain) : Glob.Compiles d.subtree := by
  rw [subtree_eq]
  exact Glob.compiles_subtree (isPlain_of_mem_text hd)

end PathGuard.Path.Directory

namespace PathGuard.PathRules

open PathGuard.Path (Directory)

variable {dirs : List Directory} {excludes : List String}

theorem compile_subtrees (hplain : ∀ d ∈ dirs, d.IsPlain)
    (hexcludes : ∀ pattern ∈ excludes, Glob.Compiles pattern) :
    Compile ⟨dirs.map Directory.subtree, excludes⟩ := by
  intro pattern hpattern
  rcases List.mem_append.1 hpattern with hpattern | hpattern
  · obtain ⟨d, hd, rfl⟩ := List.mem_map.1 hpattern
    exact Directory.compiles_subtree (hplain d hd)
  · exact hexcludes pattern hpattern

theorem grant_subtrees_iff (hplain : ∀ d ∈ dirs, d.IsPlain) (qualified relative : String) :
    Grant ⟨dirs.map Directory.subtree, excludes⟩ qualified relative ↔
      (∃ d ∈ dirs, d.Above qualified) ∧
        ∀ pattern ∈ excludes, ¬ Glob.Hits pattern qualified ∧ ¬ Glob.Hits pattern relative := by
  rw [Grant, and_comm]
  refine and_congr_left fun _ => ?_
  constructor
  · rintro ⟨pattern, hpattern, hhits⟩
    obtain ⟨d, hd, rfl⟩ := List.mem_map.1 hpattern
    exact ⟨d, hd, (Directory.hits_subtree_iff (hplain d hd)).1 hhits⟩
  · rintro ⟨d, hd, habove⟩
    exact ⟨_, List.mem_map_of_mem hd, (Directory.hits_subtree_iff (hplain d hd)).2 habove⟩

end PathGuard.PathRules
