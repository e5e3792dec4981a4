import PathGuard.Proofs.Glob.Text

/-!
# Patterns without groups

A pattern that opens no group and has no two stars in a row is flat: each of its lexemes makes one
token, whatever stands before and after it. Where a lexeme makes none, the pattern is refused.

## Main definitions

- `Lexeme.IsFlat`: lexemes that neither open a group nor may span segments
- `Lexeme.token?`: the token of a lexeme on its own

## Main results

- `Token.ofString_eq_ok_iff_of_isFlat`: the tokens of a flat pattern are those of its lexemes
-/

namespace PathGuard.Glob

namespace Lexeme

/-- A lexeme that neither opens a group nor may span segments. -/
def IsFlat (l : Lexeme) : Prop :=
  l ≠ .doubleStar ∧ l ≠ .openGroup

instance : DecidablePred IsFlat := fun l =>
  inferInstanceAs (Decidable (l ≠ .doubleStar ∧ l ≠ .openGroup))

/-- The token that a lexeme makes on its own, outside of groups. -/
def token? : Lexeme → Option Token
  | any => some .any
  | star => some .star
  | literal c _ => some (.literal c)
  | cls k => some (.cls k)
  | comma => some (.literal ',')
  | doubleStar | openGroup | closeGroup | flaw _ => none

/-- A star that no second one follows is a lexeme of its own. -/
theorem scan_starred_of_head?_ne {cs : List Char} (hcs : cs.head? ≠ some '*') :
    scan .starred cs = .star :: scan .plain cs := by
  cases cs with
  | nil => rfl
  | cons c cs =>
    have hstar : c ≠ '*' := fun h => hcs (by rw [h, List.head?_cons])
    conv_lhs => rw [scan, if_neg hstar]
    rw [scan]
    cases begin c <;> rfl

end Lexeme

namespace Token

variable {d : Draft} {l : Lexeme} {ls rest : List Lexeme} {t : Token} {ts : List Token}

/-- A lexeme with a token of its own adds that token. -/
theorem build_cons_of_token? (hd : d.frames = []) (hl : l.token? = some t) :
    build d (l :: rest) = build ((d.add t).seen l.lastChar) rest := by
  cases l with
  | comma =>
    obtain rfl : Token.literal ',' = t := by simpa [Lexeme.token?] using hl
    simp [build, Draft.read, Draft.nextBranch, hd]
  | any | star | literal | cls =>
    obtain rfl := Option.some.inj hl
    simp [build, Draft.read]
  | _ => cases hl

/-- A flat lexeme without a token of its own is a flaw, or closes a group that is not open. -/
theorem build_cons_of_token?_eq_none (hd : d.frames = []) (hflat : l.IsFlat)
    (hl : l.token? = none) (rest : List Lexeme) : ∃ flaw, build d (l :: rest) = .error flaw := by
  cases l with
  | doubleStar => exact absurd rfl hflat.1
  | openGroup => exact absurd rfl hflat.2
  | closeGroup => exact ⟨.unopenedGroup, by simp [build, Draft.read, Draft.closeGroup, hd]⟩
  | flaw f => exact ⟨f, by simp [build, Draft.read]⟩
  | _ => cases hl

theorem build_of_forall₂ (hd : d.frames = [])
    (h : List.Forall₂ (fun l t => l.token? = some t) ls ts) :
    build d ls = .ok (d.branch.reverse ++ ts) := by
  induction h generalizing d with
  | nil => rw [build_nil hd, List.append_nil]
  | @cons l t _ _ hl _ ih =>
    have hnext : ((d.add t).seen l.lastChar).frames = [] := hd
    rw [build_cons_of_token? hd hl, ih hnext]
    simp [Draft.add, Draft.seen]

theorem forall₂_of_build_eq_ok (hd : d.frames = []) (hflat : ∀ l ∈ ls, l.IsFlat)
    (h : build d ls = .ok ts) :
    ∃ us, List.Forall₂ (fun l t => l.token? = some t) ls us := by
  induction ls generalizing d with
  | nil => exact ⟨[], .nil⟩
  | cons l ls ih =>
    rw [List.forall_mem_cons] at hflat
    cases hl : l.token? with
    | none =>
      obtain ⟨flaw, herror⟩ := build_cons_of_token?_eq_none hd hflat.1 hl ls
      rw [herror] at h
      cases h
    | some t =>
      have hnext : ((d.add t).seen l.lastChar).frames = [] := hd
      rw [build_cons_of_token? hd hl] at h
      obtain ⟨us, hus⟩ := ih hnext hflat.2 h
      exact ⟨t :: us, .cons hl hus⟩

variable {pattern : String}

theorem ofString_of_forall₂
    (h : List.Forall₂ (fun l t => l.token? = some t) (Lexeme.ofString pattern) ts) :
    ofString pattern = .ok ts :=
  build_of_forall₂ (d := .empty) rfl h

/-- The tokens of a flat pattern are those of its lexemes, one by one. -/
theorem ofString_eq_ok_iff_of_isFlat (hflat : ∀ l ∈ Lexeme.ofString pattern, l.IsFlat) :
    ofString pattern = .ok ts ↔
      List.Forall₂ (fun l t => l.token? = some t) (Lexeme.ofString pattern) ts := by
  refine ⟨fun h => ?_, ofString_of_forall₂⟩
  obtain ⟨us, hus⟩ := forall₂_of_build_eq_ok (d := .empty) rfl hflat h
  have heq := ofString_of_forall₂ hus
  rw [h, Except.ok.injEq] at heq
  rwa [heq]

/-- No token that a lexeme makes on its own spans segments. -/
theorem ne_leading_of_forall₂ (h : List.Forall₂ (fun l t => l.token? = some t) ls ts) :
    ts ≠ [.leading] := by
  rintro rfl
  obtain ⟨l, -, hl, -, -⟩ := List.forall₂_cons_right_iff.1 h
  cases l <;> simp [Lexeme.token?] at hl

end Token

end PathGuard.Glob
