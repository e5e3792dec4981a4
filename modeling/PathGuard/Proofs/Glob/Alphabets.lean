import Mathlib.Data.List.Chain
import PathGuard.Proofs.Glob.Alignment
import PathGuard.Proofs.Glob.Classes
import PathGuard.Proofs.Glob.Flat
import PathGuard.Proofs.Rules.Matching

/-!
# Bytes and characters

A pattern of literals, single wildcards and listings can be read against a subject in two units. Read in
bytes, a question mark and a listing take one byte; read in characters, they take one character. What is
read of a pattern matches in bytes. The two readings agree where the wildcards for one unit can take
nothing but characters of one byte, since bytes of text are cut between characters by what follows.

## Main definitions

- `Sign`: the parts of such a pattern
- `Alphabet`: the units that a subject is read in, and how characters are spelled in them
- `Alphabet.Takes`, `Alphabet.Reads`: what a sign, or a row of signs, may stand for

## Main results

- `Token.reads_bytes_iff`: the tokens of signs have the texts that the signs stand for in bytes
- `Alphabet.reads_bytes_iff_reads_chars`: where the readings agree
- `exists_compileAll_and_first?_iff_reads`: what a pattern of signs matches
-/

namespace PathGuard.Glob

/-- A part of a pattern without groups, ranges and escapes. -/
inductive Sign where
  | literal (c : Char) (hc : IsPlain c)
  | any
  | star
  | listing (k : Listing)

namespace Sign

def text : Sign → List Char
  | literal c _ => [c]
  | any => ['?']
  | star => ['*']
  | listing k => k.text

def lexeme : Sign → Lexeme
  | literal c _ => plainLexeme c
  | any => .any
  | star => .star
  | listing k => .cls k.cls

def token : Sign → Token
  | literal c _ => .literal c
  | any => .any
  | star => .star
  | listing k => .cls k.cls

/-- A sign that may stand right before another one: two stars in a row would be read as one part. -/
def Before (s t : Sign) : Prop :=
  ¬ (s = .star ∧ t = .star)

/-- A sign that takes for one unit only characters of one byte. -/
def IsNarrow : Sign → Prop
  | any => False
  | listing k => ∀ c ∈ k.members, Utf8.IsAscii c
  | _ => True

/-- The pattern that signs make. -/
def pattern (signs : List Sign) : String :=
  String.ofList (signs.flatMap text)

theorem token?_lexeme (s : Sign) : s.lexeme.token? = some s.token := by
  cases s with
  | literal c hc =>
    by_cases hcomma : c = ','
    · simp [lexeme, plainLexeme, hcomma, Lexeme.token?, token]
    · simp [lexeme, plainLexeme, hcomma, Lexeme.token?, token]
  | _ => rfl

theorem head?_text_ne_star {s : Sign} (hs : s ≠ .star) (rest : List Char) :
    (s.text ++ rest).head? ≠ some '*' := by
  cases s with
  | literal c hc =>
    rintro h
    obtain rfl : c = '*' := Option.some.inj h
    exact absurd hc (by decide)
  | star => exact absurd rfl hs
  | any => simp [text]
  | listing k => simp [text, Listing.text]

/-- Signs are scanned one by one. -/
theorem scan_text {signs : List Sign} (hsigns : signs.IsChain Before) :
    Lexeme.scan .plain (signs.flatMap text) = signs.map lexeme := by
  induction signs with
  | nil => rfl
  | cons s signs ih =>
    rw [List.flatMap_cons, List.map_cons, ← ih hsigns.tail]
    cases s with
    | literal c hc =>
      have hplain : ∀ d ∈ [c], IsPlain d := List.forall_mem_singleton.2 hc
      exact Lexeme.scan_plain _ hplain
    | any => rfl
    | listing k => exact k.scan_text _
    | star =>
      refine Lexeme.scan_starred_of_head?_ne ?_
      cases signs with
      | nil => simp
      | cons t signs =>
        have hnext : t ≠ .star := fun h => (List.isChain_cons_cons.1 hsigns).1 ⟨rfl, h⟩
        exact head?_text_ne_star hnext _

theorem forall₂_token?_lexeme (signs : List Sign) :
    List.Forall₂ (fun l t => l.token? = some t) (signs.map lexeme) (signs.map token) := by
  rw [List.forall₂_map_left_iff, List.forall₂_map_right_iff, List.forall₂_same]
  exact fun s _ => s.token?_lexeme

/-- A pattern of signs has the tokens of its signs. -/
theorem ofString_pattern {signs : List Sign} (hsigns : signs.IsChain Before) :
    Token.ofString (pattern signs) = .ok (signs.map token) := by
  apply Token.ofString_of_forall₂
  rw [Lexeme.ofString, pattern, String.toList_ofList, scan_text hsigns]
  exact forall₂_token?_lexeme signs

end Sign

/-- The units in which a subject is read, and the spelling of characters in them. -/
structure Alphabet (α : Type) where
  spell : Char → List α
  slash : α

namespace Alphabet

def bytes : Alphabet UInt8 := ⟨String.utf8EncodeChar, Glob.slash⟩

def chars : Alphabet Char := ⟨fun c => [c], '/'⟩

variable {α : Type}

/-- Whether a sign may stand for units. -/
def Takes (a : Alphabet α) : Sign → List α → Prop
  | .literal c _, w => w = a.spell c
  | .any, w => w.length = 1 ∧ a.slash ∉ w
  | .star, w => a.slash ∉ w
  | .listing k, w => w.length = 1 ∧ ∀ x ∈ w, x ∈ k.members.flatMap a.spell

/-- Whether signs may stand for units from end to end, each of them in its turn. -/
def Reads (a : Alphabet α) : List Sign → List α → Prop
  | [], w => w = []
  | s :: signs, w => ∃ taken rest, w = taken ++ rest ∧ a.Takes s taken ∧ a.Reads signs rest

instance decidableTakes [DecidableEq α] (a : Alphabet α) :
    ∀ (s : Sign) (w : List α), Decidable (a.Takes s w)
  | .literal _ _, _ => inferInstanceAs (Decidable (_ = _))
  | .any, _ => inferInstanceAs (Decidable (_ ∧ _))
  | .star, _ => inferInstanceAs (Decidable (¬ _))
  | .listing _, _ => inferInstanceAs (Decidable (_ ∧ _))

instance decidableReads [DecidableEq α] (a : Alphabet α) :
    ∀ (signs : List Sign) (w : List α), Decidable (a.Reads signs w)
  | [], _ => inferInstanceAs (Decidable (_ = _))
  | s :: signs, _ =>
    have : DecidablePred (a.Reads signs) := decidableReads a signs
    decidable_of_iff _ (exists_eq_append_iff_take (P := fun taken rest =>
      a.Takes s taken ∧ a.Reads signs rest)).symm

end Alphabet

namespace Token

open Alphabet (bytes)

theorem mem_oneByte_iff {kind : UInt8 → Bool} {w : List UInt8} :
    w ∈ oneByte kind ↔ w.length = 1 ∧ ∀ b ∈ w, kind b = true := by
  rw [List.length_eq_one_iff]
  constructor
  · rintro ⟨b, hb, rfl⟩
    exact ⟨⟨b, rfl⟩, by simpa using hb⟩
  · rintro ⟨⟨b, rfl⟩, hall⟩
    exact ⟨b, hall b List.mem_cons_self, rfl⟩

theorem takes_bytes_iff {s : Sign} {w : List UInt8} : bytes.Takes s w ↔ w ∈ language s.token := by
  have hslash : Glob.slash ∉ w ↔ ∀ b ∈ w, (b != Glob.slash) = true := by
    constructor
    · exact fun h b hb => by simpa using fun heq : b = Glob.slash => h (heq ▸ hb)
    · exact fun h hmem => by simpa using h _ hmem
  cases s with
  | literal c hc =>
    rw [Sign.token, language]
    exact Iff.rfl
  | any =>
    rw [Sign.token, language, mem_oneByte_iff, ← hslash]
    exact Iff.rfl
  | star =>
    rw [Sign.token, language]
    exact hslash
  | listing k =>
    rw [Sign.token, language, mem_oneByte_iff]
    simp only [k.holds_cls_iff]
    exact Iff.rfl

/-- The tokens of signs have the texts that the signs stand for in bytes. -/
theorem reads_bytes_iff {signs : List Sign} {w : List UInt8} :
    bytes.Reads signs w ↔ w ∈ seqLanguage (signs.map Sign.token) := by
  induction signs generalizing w with
  | nil => exact Iff.rfl
  | cons s signs ih =>
    rw [List.map_cons, seqLanguage, Language.mem_mul, Alphabet.Reads]
    simp only [takes_bytes_iff, ih]
    constructor
    · rintro ⟨taken, rest, rfl, htaken, hrest⟩
      exact ⟨taken, htaken, rest, hrest, rfl⟩
    · rintro ⟨taken, htaken, rest, hrest, rfl⟩
      exact ⟨taken, rest, rfl, htaken, hrest⟩

end Token

/-! ### Where the readings agree -/

namespace Alphabet

theorem slash_mem_encodeChars_iff {cs : List Char} : Glob.slash ∈ Utf8.encodeChars cs ↔ '/' ∈ cs :=
  Utf8.mem_encodeChars_iff (by decide) (slash_mem_utf8EncodeChar_iff.2 rfl)

theorem takes_chars_listing_iff {k : Listing} {cs : List Char} :
    chars.Takes (.listing k) cs ↔ ∃ c ∈ k.members, cs = [c] := by
  have hspell : k.members.flatMap chars.spell = k.members := List.flatMap_singleton' k.members
  rw [Takes, hspell, List.length_eq_one_iff]
  constructor
  · rintro ⟨⟨c, rfl⟩, hall⟩
    exact ⟨c, hall c List.mem_cons_self, rfl⟩
  · rintro ⟨c, hc, rfl⟩
    exact ⟨⟨c, rfl⟩, by simpa using hc⟩

variable {s : Sign} {signs : List Sign} {cs : List Char} {u v : List UInt8}

/-- What a sign stands for in characters it stands for in bytes. -/
theorem takes_bytes_of_takes_chars (hcs : (∀ c ∈ cs, Utf8.IsAscii c) ∨ s.IsNarrow)
    (h : chars.Takes s cs) : bytes.Takes s (Utf8.encodeChars cs) := by
  cases s with
  | literal c hc =>
    obtain rfl : cs = [c] := h
    exact List.flatMap_singleton _ _
  | any =>
    obtain ⟨hlength, hslash⟩ := h
    obtain ⟨c, rfl⟩ := List.length_eq_one_iff.1 hlength
    have hascii : Utf8.IsAscii c := (hcs.resolve_right id) c List.mem_cons_self
    obtain ⟨b, -, hbytes⟩ := Utf8.exists_utf8EncodeChar_eq hascii
    refine ⟨by rw [Utf8.encodeChars, List.flatMap_singleton, hbytes]; rfl, ?_⟩
    exact fun hmem => hslash (slash_mem_encodeChars_iff.1 hmem)
  | star => exact fun hmem => h (slash_mem_encodeChars_iff.1 hmem)
  | listing k =>
    obtain ⟨c, hc, rfl⟩ := takes_chars_listing_iff.1 h
    have hascii : Utf8.IsAscii c := hcs.elim (fun h => h c List.mem_cons_self) fun h => h c hc
    obtain ⟨b, -, hbytes⟩ := Utf8.exists_utf8EncodeChar_eq hascii
    have hone : Utf8.encodeChars [c] = [b] := by rw [Utf8.encodeChars, List.flatMap_singleton, hbytes]
    rw [hone]
    refine ⟨rfl, ?_⟩
    rw [List.forall_mem_singleton]
    exact List.mem_flatMap.2 ⟨c, hc, by simp [bytes, hbytes]⟩

theorem exists_of_encodeChars_singleton {c : Char} (h : Utf8.encodeChars cs = u ++ v)
    (hu : Utf8.encodeChars [c] = u) : ∃ es, cs = [c] ++ es ∧ Utf8.encodeChars es = v := by
  have hprefix : [c] <+: cs := Utf8.encodeChars_isPrefix_iff.1 (hu ▸ ⟨v, h.symm⟩)
  obtain ⟨es, rfl⟩ := hprefix
  rw [Utf8.encodeChars_append, hu] at h
  exact ⟨es, rfl, List.append_cancel_left h⟩

/-- What a sign stands for in bytes, at the start of text, is characters for which it stands. -/
theorem exists_takes_chars (hcs : (∀ c ∈ cs, Utf8.IsAscii c) ∨ s.IsNarrow)
    (h : Utf8.encodeChars cs = u ++ v) (hu : bytes.Takes s u)
    (hv : s = .star → ∀ b ∈ v.head?, ¬ Utf8.IsTail b) :
    ∃ ds es, cs = ds ++ es ∧ Utf8.encodeChars es = v ∧ chars.Takes s ds := by
  have hmem : ∀ b ∈ u, ∃ c ∈ cs, b ∈ String.utf8EncodeChar c := by
    intro b hb
    have hb' : b ∈ Utf8.encodeChars cs := by
      rw [h]
      exact List.mem_append_left v hb
    exact List.mem_flatMap.1 hb'
  -- the byte that a wildcard takes is a character of its own
  have hone : ∀ {b : UInt8} {c : Char}, u = [b] → b < 0x80 → b ∈ String.utf8EncodeChar c →
      ∃ es, cs = [c] ++ es ∧ Utf8.encodeChars es = v := by
    intro b c hub hb hc
    refine exists_of_encodeChars_singleton h ?_
    rw [Utf8.encodeChars, List.flatMap_singleton, Utf8.eq_singleton_of_mem hb hc, hub]
  cases s with
  | literal c hc =>
    obtain ⟨es, hes, hv⟩ := exists_of_encodeChars_singleton h
      ((List.flatMap_singleton _ c).trans hu.symm)
    exact ⟨[c], es, hes, hv, rfl⟩
  | any =>
    obtain ⟨hlength, hslash⟩ := hu
    obtain ⟨b, hub⟩ := List.length_eq_one_iff.1 hlength
    obtain ⟨c, hc, hbc⟩ := hmem b (by simp [hub])
    have hb : b < 0x80 :=
      Utf8.lt_of_mem_encodeChars (hcs.resolve_right id) (List.mem_flatMap.2 ⟨c, hc, hbc⟩)
    obtain ⟨es, hes, hv⟩ := hone hub hb hbc
    refine ⟨[c], es, hes, hv, rfl, fun hmem => hslash ?_⟩
    rw [hub, ← Utf8.eq_singleton_of_mem hb hbc]
    exact slash_mem_utf8EncodeChar_iff.2 (List.mem_singleton.1 hmem).symm
  | star =>
    obtain ⟨ds, es, rfl, rfl, rfl⟩ := Utf8.exists_of_encodeChars_eq_append (hv rfl) h
    exact ⟨ds, es, rfl, rfl, fun hmem => hu (slash_mem_encodeChars_iff.2 hmem)⟩
  | listing k =>
    obtain ⟨hlength, hall⟩ := hu
    obtain ⟨b, hub⟩ := List.length_eq_one_iff.1 hlength
    obtain ⟨m, hm, hbm⟩ := List.mem_flatMap.1 (hall b (by simp [hub]))
    have hb : b < 0x80 := by
      rcases hcs with hcs | hk
      · obtain ⟨c, hc, hbc⟩ := hmem b (by simp [hub])
        exact Utf8.lt_of_mem_encodeChars hcs (List.mem_flatMap.2 ⟨c, hc, hbc⟩)
      · exact Utf8.lt_of_mem_encodeChars hk (hall b (by simp [hub]))
    obtain ⟨es, hes, hv⟩ := hone hub hb hbm
    exact ⟨[m], es, hes, hv, takes_chars_listing_iff.2 ⟨m, hm, rfl⟩⟩

/-- Where the signs are narrow and no star is first, what they stand for begins with a character. -/
theorem not_isTail_of_reads (hsigns : ∀ s ∈ signs, s.IsNarrow) (hstar : ∀ s ∈ signs.head?, s ≠ .star)
    (h : bytes.Reads signs v) : ∀ b ∈ v.head?, ¬ Utf8.IsTail b := by
  cases signs with
  | nil =>
    obtain rfl : v = [] := h
    exact nofun
  | cons s signs =>
    obtain ⟨taken, rest, rfl, htaken, -⟩ := h
    rw [List.forall_mem_cons] at hsigns
    cases s with
    | literal c hc =>
      obtain rfl : taken = String.utf8EncodeChar c := htaken
      obtain ⟨b, tail, hbytes, hb, -⟩ := Utf8.exists_utf8EncodeChar_eq_cons c
      simpa [hbytes] using hb
    | any => exact hsigns.1.elim
    | star => exact absurd rfl (hstar .star rfl)
    | listing k =>
      obtain ⟨hlength, hall⟩ := htaken
      obtain ⟨b, rfl⟩ := List.length_eq_one_iff.1 hlength
      have hb : b < 0x80 := Utf8.lt_of_mem_encodeChars hsigns.1 (hall b List.mem_cons_self)
      simpa using Utf8.not_isTail_of_lt hb

/-- The reading in bytes and the one in characters agree on text of characters of one byte, and for
    signs that take only such characters for one unit. -/
theorem reads_bytes_iff_reads_chars (hsigns : signs.IsChain Sign.Before)
    (hcs : (∀ c ∈ cs, Utf8.IsAscii c) ∨ ∀ s ∈ signs, s.IsNarrow) :
    bytes.Reads signs (Utf8.encodeChars cs) ↔ chars.Reads signs cs := by
  -- the induction is on the signs; each step cuts the text at the end of what a sign takes
  induction signs generalizing cs with
  | nil => exact @Utf8.encodeChars_inj cs []
  | cons s signs ih =>
    obtain ⟨hnext, hchain⟩ := List.isChain_cons.1 hsigns
    have hsplit : ∀ ds es, cs = ds ++ es →
        ((∀ c ∈ ds, Utf8.IsAscii c) ∨ s.IsNarrow) ∧
          ((∀ c ∈ es, Utf8.IsAscii c) ∨ ∀ t ∈ signs, t.IsNarrow) := by
      rintro ds es rfl
      rw [List.forall_mem_append, List.forall_mem_cons] at hcs
      exact ⟨hcs.imp And.left And.left, hcs.imp And.right And.right⟩
    constructor
    · rintro ⟨taken, rest, hcat, htaken, hrest⟩
      have hcut : s = .star → ∀ b ∈ rest.head?, ¬ Utf8.IsTail b := by
        intro hs
        rcases hcs with hascii | hnarrow
        · intro b hb
          have hmem : b ∈ Utf8.encodeChars cs := by
            rw [hcat]
            exact List.mem_append_right taken (List.mem_of_mem_head? hb)
          exact Utf8.not_isTail_of_lt (Utf8.lt_of_mem_encodeChars hascii hmem)
        · exact not_isTail_of_reads (fun t ht => hnarrow t (List.mem_cons_of_mem s ht))
            (fun t ht htstar => hnext t ht ⟨hs, htstar⟩) hrest
      have hs : (∀ c ∈ cs, Utf8.IsAscii c) ∨ s.IsNarrow := (hsplit cs [] (by simp)).1
      obtain ⟨ds, es, heq, rfl, hds⟩ := exists_takes_chars hs hcat htaken hcut
      exact ⟨ds, es, heq, hds, (ih hchain (hsplit ds es heq).2).1 hrest⟩
    · rintro ⟨ds, es, rfl, hds, hes⟩
      obtain ⟨hs, hlater⟩ := hsplit ds es rfl
      exact ⟨_, _, Utf8.encodeChars_append ds es, takes_bytes_of_takes_chars hs hds,
        (ih hchain hlater).2 hes⟩

end Alphabet

/-! ### Patterns of signs -/

open Alphabet (bytes chars)

/-- A pattern of signs is read and matches in bytes. It matches in characters where its wildcards for
    one unit cannot take part of a character: on text of characters of one byte, and if it has no
    question mark and lists only such characters. -/
theorem exists_compileAll_and_first?_iff_reads {signs : List Sign}
    (hsigns : signs.IsChain Sign.Before) :
    ∃ g, (∀ side, compileAll side [Sign.pattern signs] = .ok [g]) ∧
      ∀ subject,
        (first? [g] [subject] = some g ↔ bytes.Reads signs (Utf8.encode subject)) ∧
        ((∀ c ∈ subject.toList, Utf8.IsAscii c) ∨ (∀ s ∈ signs, s.IsNarrow) →
          (first? [g] [subject] = some g ↔ chars.Reads signs subject.toList)) := by
  have hcompile : compile (Sign.pattern signs) = .ok ⟨Sign.pattern signs, signs.map Sign.token⟩ := by
    rw [compile_eq, Sign.ofString_pattern hsigns]
    rfl
  have hbytes : ∀ subject, first? [⟨Sign.pattern signs, signs.map Sign.token⟩] [subject] =
      some ⟨Sign.pattern signs, signs.map Sign.token⟩ ↔ bytes.Reads signs (Utf8.encode subject) := by
    intro subject
    have hleading : signs.map Sign.token ≠ [.leading] :=
      Token.ne_leading_of_forall₂ (Sign.forall₂_token?_lexeme signs)
    have haccepts := Token.accepts_iff_mem_language (signs.map Sign.token) (Utf8.encode subject)
    rw [or_iff_right hleading, ← Token.reads_bytes_iff] at haccepts
    rw [← haccepts]
    simp [first?, acceptsAny, accepts]
  refine ⟨_, fun side => (compileAll_eq_ok_iff side).2 (.cons hcompile .nil), fun subject =>
    ⟨hbytes subject, fun hcs => ?_⟩⟩
  rw [hbytes]
  exact Alphabet.reads_bytes_iff_reads_chars hsigns hcs

/-- The signs of a pattern with a wildcard of each kind. -/
def headerSigns : List Sign :=
  [.literal 'r' (by decide), .literal '/' (by decide), .any, .star, .literal '.' (by decide),
    .listing ⟨'c', ['h'], by decide, by decide, by decide⟩]

theorem exists_compileAll_and_first?_headers :
    headerSigns.IsChain Sign.Before ∧ (∀ c ∈ "r/ab.h".toList, Utf8.IsAscii c) ∧
      ∃ g, compileAll .inclusion ["r/?*.[ch]"] = .ok [g] ∧
        first? [g] ["r/ab.h"] = some g ∧ first? [g] ["r/é.c"] = some g ∧
        first? [g] ["r/é.hc"] ≠ some g := by
  have hchain : headerSigns.IsChain Sign.Before := by
    simp [headerSigns, Sign.Before]
  have hascii : ∀ c ∈ "r/ab.h".toList, Utf8.IsAscii c := by simp [Utf8.IsAscii]
  have hpattern : Sign.pattern headerSigns = "r/?*.[ch]" := by decide
  obtain ⟨g, hread, hfirst⟩ := exists_compileAll_and_first?_iff_reads hchain
  rw [hpattern] at hread
  refine ⟨hchain, hascii, g, hread .inclusion, ?_, ?_, ?_⟩
  · rw [(hfirst "r/ab.h").2 (.inl hascii)]
    decide +kernel
  · rw [(hfirst "r/é.c").1]
    decide +kernel
  · rw [Ne, (hfirst "r/é.hc").1]
    decide +kernel

/-- A question mark does not take a character of two bytes. -/
theorem not_reads_of_two_bytes :
    chars.Reads [.literal 'r' (by decide), .literal '/' (by decide), .any] "r/é".toList ∧
      Sign.pattern [.literal 'r' (by decide), .literal '/' (by decide), .any] = "r/?" ∧
      ∃ g, compileAll .exclusion ["r/?"] = .ok [g] ∧ first? [g] ["r/é"] = none := by
  refine ⟨by decide, by decide, _, rfl, by decide +kernel⟩

end PathGuard.Glob
