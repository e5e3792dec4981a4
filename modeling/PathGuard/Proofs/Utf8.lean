import Mathlib.Data.List.Basic
import PathGuard.Utf8

/-!
# Text as bytes

No encoding of a character begins another one, so bytes continue an encoded text only where
characters continue it, and two texts are encoded alike only if they are the same.
-/

namespace PathGuard.Utf8

/-- The bytes of characters, one after the other. -/
abbrev encodeChars (cs : List Char) : List UInt8 :=
  cs.flatMap String.utf8EncodeChar

theorem encodeChars_append (cs ds : List Char) :
    encodeChars (cs ++ ds) = encodeChars cs ++ encodeChars ds :=
  List.flatMap_append

theorem toByteArray_encodeChars (cs : List Char) :
    (encodeChars cs).toByteArray = cs.utf8Encode :=
  rfl

/-- Bytes continue the encoding of characters exactly when characters continue them. -/
theorem encodeChars_isPrefix_iff {cs ds : List Char} :
    encodeChars cs <+: encodeChars ds ↔ cs <+: ds := by
  constructor
  · rintro ⟨rest, hrest⟩
    refine List.isPrefix_of_utf8Encode_append_eq_utf8Encode rest.toByteArray ?_
    rw [← toByteArray_encodeChars, ← toByteArray_encodeChars, ← hrest, List.toByteArray_append]
  · rintro ⟨rest, rfl⟩
    exact ⟨encodeChars rest, by simp [encodeChars]⟩

theorem encodeChars_inj {cs ds : List Char} : encodeChars cs = encodeChars ds ↔ cs = ds := by
  refine ⟨fun h => ?_, fun h => h ▸ rfl⟩
  have hcs : cs <+: ds := encodeChars_isPrefix_iff.1 (h ▸ List.prefix_rfl)
  have hds : ds <+: cs := encodeChars_isPrefix_iff.1 (h ▸ List.prefix_rfl)
  exact hcs.eq_of_length_le hds.length_le

/-- A byte below 128 occurs only where its own character is encoded. -/
theorem mem_utf8EncodeChar_iff {b : UInt8} (hb : b < 0x80) (c : Char) :
    b ∈ String.utf8EncodeChar c ↔ c.val.toNat = b.toNat := by
  have hlow : b.toNat < 128 := UInt8.lt_iff_toNat_lt.1 hb
  -- a short encoding is the number of its character, and every byte of a longer one is at least 128
  rw [String.utf8EncodeChar]
  split_ifs
  all_goals
    simp only [List.mem_cons, List.not_mem_nil, or_false, ← UInt8.toNat_inj, UInt8.toNat_ofNat']
    omega

/-! ### Characters of one byte -/

/-- A character that is a byte of its own. -/
def IsAscii (c : Char) : Prop :=
  c.val < 0x80

instance : DecidablePred IsAscii := fun c =>
  inferInstanceAs (Decidable (c.val < 0x80))

theorem exists_utf8EncodeChar_eq {c : Char} (hc : IsAscii c) :
    ∃ b, b < 0x80 ∧ String.utf8EncodeChar c = [b] := by
  have hval : c.val.toNat < 128 := UInt32.lt_iff_toNat_lt.1 hc
  have hbyte : UInt8.ofNat c.val.toNat < 0x80 := by
    rw [UInt8.lt_iff_toNat_lt, UInt8.toNat_ofNat', Nat.mod_eq_of_lt (by omega)]
    exact hval
  refine ⟨_, hbyte, ?_⟩
  rw [String.utf8EncodeChar]
  exact if_pos (by omega)

theorem isAscii_of_mem {b : UInt8} (hb : b < 0x80) {c : Char} (h : b ∈ String.utf8EncodeChar c) :
    IsAscii c := by
  rw [mem_utf8EncodeChar_iff hb] at h
  rw [IsAscii, UInt32.lt_iff_toNat_lt, h]
  exact UInt8.lt_iff_toNat_lt.1 hb

/-- A byte below 128 occurs in the encoding of one character alone. -/
theorem eq_of_mem_of_mem {b : UInt8} (hb : b < 0x80) {c d : Char}
    (hc : b ∈ String.utf8EncodeChar c) (hd : b ∈ String.utf8EncodeChar d) : c = d := by
  rw [mem_utf8EncodeChar_iff hb] at hc hd
  exact Char.ext (UInt32.toNat_inj.1 (hc.trans hd.symm))

/-- The byte of a character of one byte stands alone. -/
theorem eq_singleton_of_mem {b : UInt8} (hb : b < 0x80) {c : Char}
    (hc : b ∈ String.utf8EncodeChar c) : String.utf8EncodeChar c = [b] := by
  obtain ⟨x, -, hone⟩ := exists_utf8EncodeChar_eq (isAscii_of_mem hb hc)
  rw [hone, List.mem_singleton] at hc
  rw [hone, hc]

theorem mem_encodeChars_iff {b : UInt8} (hb : b < 0x80) {c : Char}
    (hc : b ∈ String.utf8EncodeChar c) {cs : List Char} : b ∈ encodeChars cs ↔ c ∈ cs := by
  rw [List.mem_flatMap]
  constructor
  · rintro ⟨d, hd, hbd⟩
    rwa [← eq_of_mem_of_mem hb hbd hc]
  · exact fun h => ⟨c, h, hc⟩

theorem lt_of_mem_encodeChars {b : UInt8} {cs : List Char} (hcs : ∀ c ∈ cs, IsAscii c)
    (hb : b ∈ encodeChars cs) : b < 0x80 := by
  obtain ⟨c, hc, hbc⟩ := List.mem_flatMap.1 hb
  obtain ⟨x, hx, hone⟩ := exists_utf8EncodeChar_eq (hcs c hc)
  rw [hone, List.mem_singleton] at hbc
  rwa [hbc]

/-- A byte below 128 occurs in bytes of text as often as its character in the text. -/
theorem count_encodeChars {b : UInt8} (hb : b < 0x80) {c : Char} (hc : b ∈ String.utf8EncodeChar c)
    (cs : List Char) : (encodeChars cs).count b = cs.count c := by
  induction cs with
  | nil => rfl
  | cons d cs ih =>
    rw [encodeChars, List.flatMap_cons, List.count_append, ih, List.count_cons, Nat.add_comm]
    by_cases hd : b ∈ String.utf8EncodeChar d
    · obtain rfl := eq_of_mem_of_mem hb hd hc
      simp [eq_singleton_of_mem hb hd]
    · have hne : d ≠ c := fun h => hd (h ▸ hc)
      simp [List.count_eq_zero_of_not_mem hd, hne]

/-- A character of one byte compares with any other as its byte does with the bytes of that one. -/
theorem le_iff_of_mem {b x : UInt8} {c d : Char} (hb : b < 0x80)
    (hc : b ∈ String.utf8EncodeChar c) (hd : x ∈ String.utf8EncodeChar d) :
    (x ≤ b ↔ d ≤ c) ∧ (b ≤ x ↔ c ≤ d) := by
  rw [mem_utf8EncodeChar_iff hb] at hc
  have hlow : b.toNat < 128 := UInt8.lt_iff_toNat_lt.1 hb
  simp only [Char.le_def, UInt32.le_iff_toNat_le, UInt8.le_iff_toNat_le, hc]
  by_cases hx : x < 0x80
  · rw [mem_utf8EncodeChar_iff hx] at hd
    rw [hd]
    exact ⟨Iff.rfl, Iff.rfl⟩
  · -- the bytes of the other character are at least 128, and so is its number
    have hhigh : 128 ≤ x.toNat := by simpa [UInt8.lt_iff_toNat_lt] using hx
    have hval : 128 ≤ d.val.toNat := by
      by_contra hsmall
      have hascii : IsAscii d := UInt32.lt_iff_toNat_lt.2 (by simpa using hsmall)
      obtain ⟨y, hy, hone⟩ := exists_utf8EncodeChar_eq hascii
      rw [hone, List.mem_singleton] at hd
      exact hx (hd ▸ hy)
    omega

/-! ### Where characters begin -/

/-- A byte that goes on with the encoding of a character. -/
def IsTail (b : UInt8) : Prop :=
  0x80 ≤ b ∧ b < 0xc0

theorem not_isTail_of_lt {b : UInt8} (hb : b < 0x80) : ¬ IsTail b :=
  fun h => absurd hb (UInt8.not_lt.2 h.1)

theorem isTail_ofNat_iff (n : Nat) : IsTail (UInt8.ofNat n) ↔ 0x80 ≤ n % 256 ∧ n % 256 < 0xc0 := by
  have hlow : (0x80 : UInt8).toNat = 0x80 := rfl
  have hhigh : (0xc0 : UInt8).toNat = 0xc0 := rfl
  rw [IsTail, UInt8.le_iff_toNat_le, UInt8.lt_iff_toNat_lt, UInt8.toNat_ofNat', hlow, hhigh]

/-- The encoding of a character is one byte that is no tail, and then tails. -/
theorem exists_utf8EncodeChar_eq_cons (c : Char) :
    ∃ b tail, String.utf8EncodeChar c = b :: tail ∧ ¬ IsTail b ∧ ∀ x ∈ tail, IsTail x := by
  rw [String.utf8EncodeChar]
  split_ifs
  all_goals
    refine ⟨_, _, rfl, ?_, ?_⟩
  all_goals
    simp only [isTail_ofNat_iff, List.mem_cons, List.not_mem_nil, or_false, forall_eq_or_imp,
      forall_eq, IsEmpty.forall_iff, implies_true]
  all_goals
    omega

/-- Bytes of text are cut between characters where what follows does not begin with a tail. -/
theorem exists_of_encodeChars_eq_append {cs : List Char} {u v : List UInt8}
    (hv : ∀ b ∈ v.head?, ¬ IsTail b) (h : encodeChars cs = u ++ v) :
    ∃ ds es, cs = ds ++ es ∧ encodeChars ds = u ∧ encodeChars es = v := by
  induction cs generalizing u with
  | nil =>
    obtain ⟨rfl, rfl⟩ := List.append_eq_nil_iff.1 h.symm
    exact ⟨[], [], rfl, rfl, rfl⟩
  | cons c cs ih =>
    rw [encodeChars, List.flatMap_cons] at h
    rcases List.append_eq_append_iff.1 h with ⟨a, rfl, hrest⟩ | ⟨a, hc, rfl⟩
    · obtain ⟨ds, es, rfl, rfl, rfl⟩ := ih hrest
      exact ⟨c :: ds, es, rfl, rfl, rfl⟩
    · -- the cut lies within the first character, so it lies before it or behind it
      obtain ⟨b, tail, hbytes, -, htail⟩ := exists_utf8EncodeChar_eq_cons c
      cases u with
      | nil => exact ⟨[], c :: cs, rfl, rfl, by rw [encodeChars, List.flatMap_cons, hc]; rfl⟩
      | cons x u =>
        cases a with
        | nil =>
          rw [List.append_nil] at hc
          exact ⟨[c], cs, rfl, by rw [encodeChars, List.flatMap_singleton, hc], rfl⟩
        | cons y a =>
          rw [hbytes, List.cons_append, List.cons.injEq] at hc
          have hy : y ∈ tail := by simp [hc.2]
          exact absurd (htail y hy) (hv y rfl)

end PathGuard.Utf8
