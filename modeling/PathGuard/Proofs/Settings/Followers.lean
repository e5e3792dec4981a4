import Mathlib.Data.List.Basic
import PathGuard.Settings.Board

/-!
# Followers one by one

Each follower looks at the board for itself, and gives the value shown to the switch if it has not seen
the settings shown. The order in which the followers look does not matter, nor whether one of them
looks twice: once each has looked, the switch and the board are as letting them all run leaves them.

## Main definitions

- `Board.look`: what one follower does
- `Board.settled`: the switch and the board after the followers have run
- `Board.HasSeen`: followers that have seen the settings shown

## Main results

- `Board.foldl_look`: followers that look one after the other
-/

namespace PathGuard.Board

/-- Lets one follower look, with the switch and the board before and after. -/
def look (x : Bool × Board) (index : ℕ) : Bool × Board :=
  match x.2.followers[index]? with
  | none => x
  | some seen =>
    (if seen = x.2.edition then x.1 else x.2.current.enforced,
      { x.2 with followers := x.2.followers.set index x.2.edition })

/-- The switch and the board after the followers have run. -/
def settled (x : Bool × Board) : Bool × Board :=
  (x.2.settle.1.getD x.1, x.2.settle.2)

theorem settled_fst (x : Bool × Board) :
    (settled x).1 = if x.2.isUnseen then x.2.current.enforced else x.1 := by
  rw [settled, settle]
  cases x.2.isUnseen <;> rfl

theorem isUnseen_eq_false_iff (b : Board) :
    b.isUnseen = false ↔ ∀ seen ∈ b.followers, seen = b.edition := by
  simp [isUnseen]

/-- Followers that have all seen the settings shown change nothing. -/
theorem settled_of_isUnseen_eq_false {x : Bool × Board} (h : x.2.isUnseen = false) :
    settled x = x := by
  have hfollowers : x.2.followers.map (fun _ => x.2.edition) = x.2.followers := by
    conv_rhs => rw [← List.map_id x.2.followers]
    exact List.map_congr_left fun seen hseen => ((isUnseen_eq_false_iff _).1 h seen hseen).symm
  apply Prod.ext
  · rw [settled_fst, h]
    rfl
  · change { x.2 with followers := x.2.followers.map fun _ => x.2.edition } = x.2
    rw [hfollowers]

/-- What comes of letting the followers run is the same after one of them has looked. -/
theorem settled_look (x : Bool × Board) (index : ℕ) : settled (look x index) = settled x := by
  unfold look
  cases hseen : x.2.followers[index]? with
  | none => rfl
  | some seen =>
    -- looking again changes nothing; a follower that is behind is one that the rest would act on too
    by_cases h : seen = x.2.edition
    · have hset : x.2.followers.set index x.2.edition = x.2.followers := by
        obtain ⟨hlt, hget⟩ := List.getElem?_eq_some_iff.1 hseen
        rw [← h, ← hget, List.set_getElem_self]
      simp only [h, if_true, hset]
    · have hunseen : x.2.isUnseen = true := by
        rw [isUnseen, List.any_eq_true]
        exact ⟨seen, List.mem_of_getElem? hseen, bne_iff_ne.2 h⟩
      apply Prod.ext
      · rw [settled_fst, settled_fst, hunseen]
        simp [h]
      · simp [settled, settle]

/-- Where a follower has not fallen behind. There may be no follower of that index. -/
def HasSeen (b : Board) (index : ℕ) : Prop :=
  ∀ seen, b.followers[index]? = some seen → seen = b.edition

theorem look_snd (x : Bool × Board) (index : ℕ) :
    (look x index).2 = { x.2 with followers := x.2.followers.set index x.2.edition } := by
  unfold look
  cases hseen : x.2.followers[index]? with
  | none =>
    have hlen := List.getElem?_eq_none_iff.1 hseen
    rw [List.set_eq_of_length_le hlen]
  | some seen => rfl

theorem hasSeen_look_self (x : Bool × Board) (index : ℕ) : (look x index).2.HasSeen index := by
  intro seen hseen
  rw [look_snd] at hseen ⊢
  rw [List.getElem?_set_self'] at hseen
  cases hfollower : x.2.followers[index]? with
  | none =>
    rw [hfollower] at hseen
    cases hseen
  | some before =>
    rw [hfollower] at hseen
    exact (Option.some.inj hseen).symm

theorem HasSeen.look {x : Bool × Board} {index : ℕ} (h : x.2.HasSeen index) (other : ℕ) :
    (look x other).2.HasSeen index := by
  by_cases hother : other = index
  · rw [hother]
    exact hasSeen_look_self x index
  · intro seen hseen
    rw [look_snd] at hseen ⊢
    rw [List.getElem?_set_ne hother] at hseen
    exact h seen hseen

theorem hasSeen_foldl_look {x : Bool × Board} {order : List ℕ} {index : ℕ}
    (h : x.2.HasSeen index ∨ index ∈ order) : (order.foldl Board.look x).2.HasSeen index := by
  induction order generalizing x with
  | nil => exact h.resolve_right List.not_mem_nil
  | cons first order ih =>
    rw [List.foldl_cons]
    refine ih ?_
    rcases h with h | h
    · exact .inl (h.look first)
    · rcases List.mem_cons.1 h with rfl | h
      · exact .inl (hasSeen_look_self x _)
      · exact .inr h

theorem length_followers_foldl_look (x : Bool × Board) (order : List ℕ) :
    (order.foldl look x).2.followers.length = x.2.followers.length := by
  induction order generalizing x with
  | nil => rfl
  | cons first order ih =>
    rw [List.foldl_cons, ih, look_snd]
    exact List.length_set

theorem settled_foldl_look (x : Bool × Board) (order : List ℕ) :
    settled (order.foldl look x) = settled x := by
  induction order generalizing x with
  | nil => rfl
  | cons first order ih => rw [List.foldl_cons, ih, settled_look]

/-- In whatever order the followers look, each at least once, they leave the switch and the board as
    letting them all run does. -/
theorem foldl_look (x : Bool × Board) {order : List ℕ}
    (hall : ∀ index < x.2.followers.length, index ∈ order) : order.foldl look x = settled x := by
  have hseen : (order.foldl look x).2.isUnseen = false := by
    rw [isUnseen_eq_false_iff]
    intro seen hmem
    obtain ⟨index, hlt, hget⟩ := List.mem_iff_getElem.1 hmem
    have hlt' := hlt
    rw [length_followers_foldl_look] at hlt'
    exact hasSeen_foldl_look (.inr (hall index hlt')) seen (by rw [List.getElem?_eq_getElem hlt, hget])
  rw [← settled_foldl_look x order, settled_of_isUnseen_eq_false hseen]

end PathGuard.Board
