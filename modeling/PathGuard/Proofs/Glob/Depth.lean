import PathGuard.Proofs.Glob.Classes
import PathGuard.Proofs.Glob.Flat

/-!
# How deep a pattern matches

The slashes of a pattern say at which depth it matches. In a flat pattern no wildcard takes a slash,
and a literal slash takes just one, so that a subject has the slashes that the pattern shows and those
that classes have taken. A class takes one when its text stands for the slash, as a negated class does
that does not name it.

## Main definitions

- `Glob.depth`: the slashes that a pattern shows outside of its classes
- `Glob.slack`: its classes that stand for the slash

## Main results

- `Glob.depth_of_hits`: the depths at which a flat pattern matches
-/

namespace PathGuard.Glob

namespace Lexeme

def isSlash : Lexeme → Bool
  | literal c _ => c == '/'
  | _ => false

/-- Whether a lexeme is a class that stands for the slash. -/
def admitsSlash : Lexeme → Bool
  | cls k => k.admits '/'
  | _ => false

end Lexeme

/-- The number of slashes in a pattern outside of its classes. -/
def depth (pattern : String) : Nat :=
  (Lexeme.ofString pattern).countP Lexeme.isSlash

/-- The number of classes in a pattern that stand for the slash. -/
def slack (pattern : String) : Nat :=
  (Lexeme.ofString pattern).countP Lexeme.admitsSlash

/-- Without brackets all slashes of a text stand outside of classes. -/
theorem countP_isSlash_scan {cs : List Char} (hcs : '[' ∉ cs) :
    (Lexeme.scan .plain cs).countP Lexeme.isSlash = cs.count '/' ∧
      (Lexeme.scan .starred cs).countP Lexeme.isSlash = cs.count '/' ∧
      (Lexeme.scan .escaped cs).countP Lexeme.isSlash = cs.count '/' := by
  induction cs with
  | nil => decide
  | cons c cs ih =>
    rw [List.mem_cons, not_or] at hcs
    obtain ⟨hplain, hstarred, hescaped⟩ := ih hcs.2
    have hfirst : (Lexeme.scan .plain (c :: cs)).countP Lexeme.isSlash = (c :: cs).count '/' := by
      have hbegin : (∃ l, Lexeme.begin c = .inl l ∧ l.isSlash = (c == '/')) ∨
          (Lexeme.begin c = .inr .starred ∧ c ≠ '/') ∨ (Lexeme.begin c = .inr .escaped ∧ c ≠ '/') := by
        unfold Lexeme.begin
        split <;> simp_all [Lexeme.isSlash]
      rw [Lexeme.scan, List.count_cons]
      rcases hbegin with ⟨l, hl, hslash⟩ | ⟨hmode, hne⟩ | ⟨hmode, hne⟩
      · simp [hl, List.countP_cons, hplain, hslash]
      · simp [hmode, hstarred, hne]
      · simp [hmode, hescaped, hne]
    refine ⟨hfirst, ?_, ?_⟩
    · by_cases hstar : c = '*'
      · subst hstar
        simp [Lexeme.scan, hplain, Lexeme.isSlash]
      · rw [Lexeme.scan_starred_of_head?_ne (by simpa using hstar), List.countP_cons, hfirst]
        rfl
    · rw [Lexeme.scan, List.countP_cons, List.count_cons, hplain]
      rfl

/-- A pattern without brackets shows all of its slashes. -/
theorem depth_eq_count {pattern : String} (hpattern : '[' ∉ pattern.toList) :
    depth pattern = pattern.toList.count '/' :=
  (countP_isSlash_scan hpattern).1

/-- The slashes of a text are its bytes that are slashes. -/
theorem count_slash_encode (subject : String) :
    (Utf8.encode subject).count slash = subject.toList.count '/' :=
  Utf8.count_encodeChars (by decide) (slash_mem_utf8EncodeChar_iff.2 rfl) subject.toList

namespace Token

variable {l : Lexeme} {t : Token} {ls : List Lexeme} {ts : List Token} {w : List UInt8}

theorem count_slash_literal (c : Char) :
    (String.utf8EncodeChar c).count slash = (c == '/').toNat := by
  have hone := Utf8.count_encodeChars (by decide) (slash_mem_utf8EncodeChar_iff.2 rfl) [c]
  rw [Utf8.encodeChars, List.flatMap_singleton, List.count_singleton] at hone
  rw [hone]
  cases c == '/' <;> rfl

theorem count_slash_eq_zero {w : List UInt8} (hw : ∀ b ∈ w, (b != slash) = true) :
    w.count slash = 0 := by
  rw [List.count_eq_zero]
  exact fun h => by simpa using hw slash h

/-- A text of a token has the slash that the lexeme shows, and one more only from a class. -/
theorem count_slash_of_mem_language (hl : l.token? = some t) (hw : w ∈ language t) :
    l.isSlash.toNat ≤ w.count slash ∧
      w.count slash ≤ l.isSlash.toNat + l.admitsSlash.toNat := by
  cases l with
  | any =>
    obtain rfl := Option.some.inj hl
    rw [language] at hw
    obtain ⟨b, hb, rfl⟩ := hw
    simp [count_slash_eq_zero (w := [b]) (by simpa using hb), Lexeme.isSlash]
  | star =>
    obtain rfl := Option.some.inj hl
    rw [language] at hw
    simp [count_slash_eq_zero hw, Lexeme.isSlash]
  | literal c escaped =>
    obtain rfl := Option.some.inj hl
    rw [language] at hw
    obtain rfl : w = String.utf8EncodeChar c := hw
    simp [count_slash_literal, Lexeme.isSlash]
  | comma =>
    obtain rfl := Option.some.inj hl
    rw [language] at hw
    obtain rfl : w = String.utf8EncodeChar ',' := hw
    simp [count_slash_literal, Lexeme.isSlash]
  | cls k =>
    obtain rfl := Option.some.inj hl
    rw [language] at hw
    obtain ⟨b, hb, rfl⟩ := hw
    by_cases hslash : b = slash
    · subst hslash
      rw [CharClass.holds_eq_admits k (by decide) (slash_mem_utf8EncodeChar_iff.2 rfl)] at hb
      simp [Lexeme.isSlash, Lexeme.admitsSlash, hb]
    · simp [hslash, Lexeme.isSlash]
  | _ => cases hl

theorem countP_cons_toNat (p : Lexeme → Bool) (l : Lexeme) (ls : List Lexeme) :
    (l :: ls).countP p = ls.countP p + (p l).toNat := by
  rw [List.countP_cons]
  cases p l <;> rfl

/-- A text of a flat pattern has at least its slashes, and at most one more for each class that stands
    for a slash. -/
theorem count_slash_of_mem_seqLanguage (h : List.Forall₂ (fun l t => l.token? = some t) ls ts)
    (hw : w ∈ seqLanguage ts) :
    ls.countP Lexeme.isSlash ≤ w.count slash ∧
      w.count slash ≤ ls.countP Lexeme.isSlash + ls.countP Lexeme.admitsSlash := by
  induction h generalizing w with
  | nil =>
    rw [seqLanguage, Language.mem_one] at hw
    simp [hw]
  | @cons l t ls ts hl _ ih =>
    rw [seqLanguage] at hw
    obtain ⟨u, hu, v, hv, rfl⟩ := Language.mem_mul.1 hw
    obtain ⟨hlow, hhigh⟩ := count_slash_of_mem_language hl hu
    obtain ⟨hlow', hhigh'⟩ := ih hv
    rw [List.count_append, countP_cons_toNat, countP_cons_toNat]
    omega

/-- A lexeme has a text with its slash, and with one for a class that stands for it. -/
theorem exists_encodeChars_mem_language (hl : l.token? = some t)
    (hcls : ∀ k, l = .cls k → ∃ c, Utf8.IsAscii c ∧ k.admits c = true) :
    ∃ cs, Utf8.encodeChars cs ∈ language t ∧
      cs.count '/' = l.isSlash.toNat + l.admitsSlash.toNat := by
  cases l with
  | any =>
    obtain rfl := Option.some.inj hl
    refine ⟨['x'], ?_, rfl⟩
    rw [language]
    exact ⟨0x78, by decide, rfl⟩
  | star =>
    obtain rfl := Option.some.inj hl
    refine ⟨[], ?_, rfl⟩
    rw [language]
    exact fun b hb => absurd hb List.not_mem_nil
  | literal c escaped =>
    obtain rfl := Option.some.inj hl
    refine ⟨[c], ?_, ?_⟩
    · rw [language, Utf8.encodeChars, List.flatMap_singleton]
      rfl
    · rw [List.count_singleton]
      cases hc : c == '/' <;> simp [Lexeme.isSlash, Lexeme.admitsSlash, hc]
  | comma =>
    obtain rfl := Option.some.inj hl
    refine ⟨[','], ?_, rfl⟩
    rw [language]
    rfl
  | cls k =>
    obtain rfl := Option.some.inj hl
    have hmem : ∀ c, Utf8.IsAscii c → k.admits c = true →
        Utf8.encodeChars [c] ∈ language (.cls k) := by
      intro c hc hk
      obtain ⟨b, hb, hbytes⟩ := Utf8.exists_utf8EncodeChar_eq hc
      have hbc : b ∈ String.utf8EncodeChar c := by simp [hbytes]
      rw [language, Utf8.encodeChars, List.flatMap_singleton, hbytes]
      exact ⟨b, (CharClass.holds_eq_admits k hb hbc).trans hk, rfl⟩
    -- the slash is taken where the class stands for it
    by_cases hslash : k.admits '/' = true
    · exact ⟨['/'], hmem _ (by decide) hslash, by simp [Lexeme.isSlash, Lexeme.admitsSlash, hslash]⟩
    · obtain ⟨c, hc, hk⟩ := hcls k rfl
      have hne : c ≠ '/' := fun h => hslash (h ▸ hk)
      exact ⟨[c], hmem c hc hk, by simp [Lexeme.isSlash, Lexeme.admitsSlash, hslash, hne]⟩
  | _ => cases hl

theorem exists_encodeChars_mem_seqLanguage (h : List.Forall₂ (fun l t => l.token? = some t) ls ts)
    (hcls : ∀ k, .cls k ∈ ls → ∃ c, Utf8.IsAscii c ∧ k.admits c = true) :
    ∃ cs, Utf8.encodeChars cs ∈ seqLanguage ts ∧
      cs.count '/' = ls.countP Lexeme.isSlash + ls.countP Lexeme.admitsSlash := by
  induction h with
  | nil => exact ⟨[], rfl, rfl⟩
  | @cons l t ls ts hl _ ih =>
    obtain ⟨cs, hcs, hcount⟩ := exists_encodeChars_mem_language hl fun k hk =>
      hcls k (hk ▸ List.mem_cons_self)
    obtain ⟨ds, hds, hcount'⟩ := ih fun k hk => hcls k (List.mem_cons_of_mem l hk)
    refine ⟨cs ++ ds, ?_, ?_⟩
    · rw [Utf8.encodeChars_append, seqLanguage]
      exact ⟨_, hcs, _, hds, rfl⟩
    · rw [List.count_append, hcount, hcount', countP_cons_toNat, countP_cons_toNat]
      omega

end Token

variable {pattern : String}

/-- A flat pattern matches no deeper than its slashes and its classes that stand for a slash allow, and
    not less deep than its slashes. If its classes all stand for some character of one byte, it matches
    at a single depth just when none of them stands for the slash. -/
theorem depth_of_hits (hflat : ∀ l ∈ Lexeme.ofString pattern, l.IsFlat) :
    (∀ subject, Hits pattern subject →
      depth pattern ≤ subject.toList.count '/' ∧
        subject.toList.count '/' ≤ depth pattern + slack pattern) ∧
    (Compiles pattern →
      (∀ k, .cls k ∈ Lexeme.ofString pattern → ∃ c, Utf8.IsAscii c ∧ k.admits c = true) →
      ((∀ subject, Hits pattern subject → subject.toList.count '/' = depth pattern) ↔
        slack pattern = 0)) := by
  have hbounds : ∀ subject, Hits pattern subject →
      depth pattern ≤ subject.toList.count '/' ∧
        subject.toList.count '/' ≤ depth pattern + slack pattern := by
    intro subject hhits
    obtain ⟨tokens, htokens⟩ := exists_tokens_of_compiles hhits.compiles
    have hlexemes := (Token.ofString_eq_ok_iff_of_isFlat hflat).1 htokens
    rw [hits_iff_of_tokens htokens, or_iff_right (Token.ne_leading_of_forall₂ hlexemes)] at hhits
    rw [← count_slash_encode]
    exact Token.count_slash_of_mem_seqLanguage hlexemes hhits
  refine ⟨hbounds, fun hcompiles hcls => ⟨fun hdepth => ?_, fun hslack subject hhits => ?_⟩⟩
  · -- the deepest subject shows that there is no class to take a slash
    obtain ⟨tokens, htokens⟩ := exists_tokens_of_compiles hcompiles
    have hlexemes := (Token.ofString_eq_ok_iff_of_isFlat hflat).1 htokens
    obtain ⟨cs, hcs, hcount⟩ := Token.exists_encodeChars_mem_seqLanguage hlexemes hcls
    have hhits : Hits pattern (String.ofList cs) := by
      rw [hits_iff_of_tokens htokens, Utf8.encode, String.toList_ofList]
      exact .inr hcs
    have heq := hdepth _ hhits
    rw [String.toList_ofList, hcount, ← depth, ← slack] at heq
    omega
  · have := hbounds subject hhits
    omega

theorem depth_of_hits_sources :
    (∀ l ∈ Lexeme.ofString "r/?[!x]*.[ch]", l.IsFlat) ∧ Hits "r/?[!x]*.[ch]" "r/a/b.c" ∧
      (depth "r/?[!x]*.[ch]" ≤ 2 ∧ 2 ≤ depth "r/?[!x]*.[ch]" + slack "r/?[!x]*.[ch]") ∧
      ¬ ∀ subject, Hits "r/?[!x]*.[ch]" subject →
        subject.toList.count '/' = depth "r/?[!x]*.[ch]" := by
  have hflat : ∀ l ∈ Lexeme.ofString "r/?[!x]*.[ch]", l.IsFlat := by decide
  have hhits : Hits "r/?[!x]*.[ch]" "r/a/b.c" := ⟨_, rfl, by decide +kernel⟩
  have hlexemes : Lexeme.ofString "r/?[!x]*.[ch]" =
      [.literal 'r' false, .literal '/' false, .any, .cls ⟨true, [('x', 'x')]⟩, .star,
        .literal '.' false, .cls ⟨false, [('c', 'c'), ('h', 'h')]⟩] := by decide
  obtain ⟨hbounds, hiff⟩ := depth_of_hits hflat
  refine ⟨hflat, hhits, hbounds _ hhits, fun hall => ?_⟩
  have hslack := (hiff hhits.compiles (fun k hk => ?_)).1 hall
  · exact absurd hslack (by decide)
  · have hk' : k = ⟨true, [('x', 'x')]⟩ ∨ k = ⟨false, [('c', 'c'), ('h', 'h')]⟩ := by
      simpa [hlexemes] using hk
    rcases hk' with rfl | rfl
    · exact ⟨'a', by decide, by decide⟩
    · exact ⟨'c', by decide, by decide⟩

/-- A negated class takes a slash. -/
theorem hits_negated_class :
    (∀ l ∈ Lexeme.ofString "r[!a]b", l.IsFlat) ∧ Hits "r[!a]b" "r/b" ∧
      "r/b".toList.count '/' ≠ depth "r[!a]b" :=
  ⟨by decide, ⟨_, rfl, by decide +kernel⟩, by decide⟩

end PathGuard.Glob
