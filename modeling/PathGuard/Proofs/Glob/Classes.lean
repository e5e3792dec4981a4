import Mathlib.Data.Char
import PathGuard.Glob.Lexeme
import PathGuard.Proofs.Utf8

/-!
# Classes and the characters they name

A class names characters and stands for bytes. For a character of one byte the two agree: the class
holds the byte just when it names the character, or is negated and does not. A class that names single
characters holds the bytes of all of them.

## Main definitions

- `CharClass.admits`: whether a class, as it is written, stands for a character
- `Listing`: a class that names single characters

## Main results

- `CharClass.holds_eq_admits`: the bytes of a class are right for characters of one byte
- `Listing.scan_text`: how a listing is scanned
-/

namespace PathGuard.Glob

namespace CharClass

/-- Whether a class stands for a character by the ranges that it names. -/
def admits (k : CharClass) (c : Char) : Bool :=
  (k.ranges.any fun (first, last) => first ≤ c && c ≤ last) != k.negated

variable {b : UInt8} {c : Char}

theorem headD_mem (d : Char) : (String.utf8EncodeChar d).headD 0 ∈ String.utf8EncodeChar d := by
  obtain ⟨x, xs, hbytes⟩ := List.exists_cons_of_ne_nil (String.utf8EncodeChar_ne_nil (c := d))
  rw [hbytes]
  exact List.mem_cons_self

theorem getLastD_mem (d : Char) : (String.utf8EncodeChar d).getLastD 0 ∈ String.utf8EncodeChar d := by
  obtain ⟨x, xs, hbytes⟩ := List.exists_cons_of_ne_nil (String.utf8EncodeChar_ne_nil (c := d))
  rw [hbytes, List.getLastD_cons]
  exact List.getLastD_mem_cons

/-- Ranges of one byte each hold the bytes that are listed. -/
theorem any_map_self_iff (b : UInt8) (bytes : List UInt8) :
    ((bytes.map fun x => (x, x)).any fun (lo, hi) => lo ≤ b && b ≤ hi) = true ↔ b ∈ bytes := by
  simp only [List.any_map, List.any_eq_true, Function.comp_apply, Bool.and_eq_true,
    decide_eq_true_eq]
  constructor
  · rintro ⟨x, hx, hle, hge⟩
    rwa [UInt8.le_antisymm hge hle]
  · exact fun h => ⟨b, h, UInt8.le_refl b, UInt8.le_refl b⟩

/-- The byte ranges of a range of characters hold the byte of a character of one byte just when the
    range has the character. -/
theorem any_byteRanges_iff (hb : b < 0x80) (hc : b ∈ String.utf8EncodeChar c) (first last : Char) :
    ((byteRanges first last).any fun (lo, hi) => lo ≤ b && b ≤ hi) = true ↔
      first ≤ c ∧ c ≤ last := by
  rw [byteRanges]
  split
  · next heq =>
    subst heq
    rw [any_map_self_iff]
    constructor
    · intro hfirst
      rw [Utf8.eq_of_mem_of_mem hb hfirst hc]
      exact ⟨le_rfl, le_rfl⟩
    · rintro ⟨hle, hge⟩
      rwa [le_antisymm hle hge]
  · -- only the middle range can hold the byte: it stands alone in its encoding
    have hfirst : b ∉ (String.utf8EncodeChar first).dropLast := by
      intro h
      rw [Utf8.eq_singleton_of_mem hb ((List.dropLast_sublist _).subset h)] at h
      cases h
    have hlast : b ∉ (String.utf8EncodeChar last).tail := by
      intro h
      rw [Utf8.eq_singleton_of_mem hb (List.mem_of_mem_tail h)] at h
      cases h
    rw [List.any_append, List.any_append, Bool.or_eq_true, Bool.or_eq_true, any_map_self_iff,
      any_map_self_iff, or_iff_left hlast, or_iff_right hfirst]
    simp only [List.any_cons, List.any_nil, Bool.or_false, Bool.and_eq_true, decide_eq_true_eq]
    rw [(Utf8.le_iff_of_mem hb hc (getLastD_mem first)).1, (Utf8.le_iff_of_mem hb hc (headD_mem last)).2]

/-- For a character of one byte a class holds what it names. -/
theorem holds_eq_admits (k : CharClass) (hb : b < 0x80) (hc : b ∈ String.utf8EncodeChar c) :
    k.holds b = k.admits c := by
  have hrange : ∀ r : Char × Char,
      ((byteRanges r.1 r.2).any fun (lo, hi) => lo ≤ b && b ≤ hi) = (r.1 ≤ c && c ≤ r.2) := by
    intro r
    rw [Bool.eq_iff_iff, any_byteRanges_iff hb hc]
    simp
  simp only [holds, admits, hrange]

end CharClass

/-! ### Listings -/

/-- Characters between brackets that are all taken as they stand. The first is no sign of negation; no
    other is a closing bracket, and a dash is the first or the last. -/
structure Listing where
  first : Char
  rest : List Char
  first_notMem : first ∉ ['!', '^']
  bracket_notMem : ']' ∉ rest
  dash_notMem : '-' ∉ rest.dropLast

namespace Listing

def members (k : Listing) : List Char :=
  k.first :: k.rest

/-- The text of a listing, its brackets included. -/
def text (k : Listing) : List Char :=
  '[' :: k.first :: (k.rest ++ [']'])

def cls (k : Listing) : CharClass :=
  ⟨false, k.members.map fun c => (c, c)⟩

theorem holds_cls_iff (k : Listing) (b : UInt8) :
    k.cls.holds b = true ↔ b ∈ Utf8.encodeChars k.members := by
  have hone : ∀ c, ((CharClass.byteRanges c c).any fun (lo, hi) => lo ≤ b && b ≤ hi) = true ↔
      b ∈ String.utf8EncodeChar c := by
    intro c
    rw [CharClass.byteRanges, if_pos rfl, CharClass.any_map_self_iff]
  simp only [CharClass.holds, cls, List.any_map, bne_iff_ne, ne_eq, Bool.not_eq_false,
    List.any_eq_true, Function.comp_apply, hone, List.mem_flatMap]

section Draft

variable {negated : Bool} {ranges : List (Char × Char)}

theorem read_bracket (hranges : ranges ≠ []) (dashed : Bool) :
    (CharClass.Draft.mk negated ranges dashed).read ']' =
      .done (CharClass.Draft.mk negated ranges dashed).finish := by
  simp [CharClass.Draft.read, hranges]

theorem read_dash (hranges : ranges ≠ []) :
    (CharClass.Draft.mk negated ranges false).read '-' = .more ⟨negated, ranges, true⟩ := by
  simp [CharClass.Draft.read, hranges]

theorem read_member {c : Char} (hbracket : c ≠ ']') (hdash : c ≠ '-') :
    (CharClass.Draft.mk negated ranges false).read c = .more ⟨negated, (c, c) :: ranges, false⟩ := by
  simp [CharClass.Draft.read, CharClass.Draft.single, hbracket, hdash]

/-- The rest of a class, after a first member, is scanned to its members. -/
theorem scan_inClass {cs : List Char} (hbracket : ']' ∉ cs) (hdash : '-' ∉ cs.dropLast)
    (hranges : ranges ≠ []) (later : List Char) :
    Lexeme.scan (.inClass ⟨negated, ranges, false⟩) (cs ++ ']' :: later) =
      .cls ⟨negated, ranges.reverse ++ cs.map fun c => (c, c)⟩ :: Lexeme.scan .plain later := by
  induction cs generalizing ranges with
  | nil =>
    rw [List.nil_append, Lexeme.scan, read_bracket hranges]
    simp [CharClass.Draft.finish]
  | cons c cs ih =>
    rw [List.mem_cons, not_or] at hbracket
    by_cases hc : c = '-'
    · -- a dash is the last member, and becomes one at the bracket
      obtain rfl : cs = [] := by
        by_contra hne
        rw [List.dropLast_cons_of_ne_nil hne, hc] at hdash
        exact hdash List.mem_cons_self
      rw [hc, List.singleton_append, Lexeme.scan, read_dash hranges]
      simp only
      rw [Lexeme.scan, read_bracket hranges]
      simp [CharClass.Draft.finish, CharClass.Draft.single]
    · have hdash' : '-' ∉ cs.dropLast := by
        intro h
        cases cs with
        | nil => cases h
        | cons d cs => exact hdash (List.mem_cons_of_mem c h)
      rw [List.cons_append, Lexeme.scan, read_member (Ne.symm hbracket.1) hc]
      simp only
      rw [ih hbracket.2 hdash' (List.cons_ne_nil _ _)]
      simp

end Draft

/-- A listing is scanned to the class of its members. -/
theorem scan_text (k : Listing) (later : List Char) :
    Lexeme.scan .plain (k.text ++ later) = .cls k.cls :: Lexeme.scan .plain later := by
  have hfirst := k.first_notMem
  simp only [List.mem_cons, List.not_mem_nil, or_false] at hfirst
  have hread : (CharClass.Draft.start false).read k.first =
      .more ⟨false, [(k.first, k.first)], false⟩ := by
    simp [CharClass.Draft.read, CharClass.Draft.start, CharClass.Draft.single]
  have hopen : Lexeme.scan .plain (k.text ++ later) =
      Lexeme.scan .bracket (k.first :: (k.rest ++ ']' :: later)) := by
    simp [text, Lexeme.scan, Lexeme.begin]
  rw [hopen, Lexeme.scan, if_neg hfirst, hread]
  simp only
  rw [scan_inClass k.bracket_notMem k.dash_notMem (List.cons_ne_nil _ _)]
  rfl

end Listing

end PathGuard.Glob
