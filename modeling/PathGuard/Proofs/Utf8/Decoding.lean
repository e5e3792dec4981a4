import PathGuard.Proofs.Utf8

/-!
# Decoding what has been encoded

Bytes that encode a text are decoded to the text: each character is read back from its encoding, whatever
bytes come behind, and nothing else is left over. A text that does not begin with a byte order mark is
not taken for one that does.

## Main results

- `decode_utf8EncodeChar`: reading one character
- `decodeLossy_dropMark_encode`: the text of the bytes that encode a text
-/

namespace PathGuard.Utf8

/-! ### Reading one byte -/

theorem ofNat_lt_iff {n : ℕ} (hn : n < 256) (b : UInt8) : UInt8.ofNat n < b ↔ n < b.toNat := by
  rw [UInt8.lt_iff_toNat_lt, UInt8.toNat_ofNat', Nat.mod_eq_of_lt hn]

theorem ofNat_eq_iff {n : ℕ} (hn : n < 256) (b : UInt8) : UInt8.ofNat n = b ↔ n = b.toNat := by
  rw [← UInt8.toNat_inj, UInt8.toNat_ofNat', Nat.mod_eq_of_lt hn]

/-- What a byte begins, told from its number. -/
theorem begin_ofNat {n : ℕ} (hn : n < 256) :
    begin (UInt8.ofNat n) =
      if n < 0x80 then .inl (some (Char.ofNat n))
      else if n < 0xc2 then .inl none
      else if n < 0xe0 then .inr ⟨1, n - 0xc0, 0x80, 0xbf⟩
      else if n < 0xf0 then
        .inr ⟨2, n - 0xe0, if n = 0xe0 then 0xa0 else 0x80, if n = 0xed then 0x9f else 0xbf⟩
      else if n < 0xf5 then
        .inr ⟨3, n - 0xf0, if n = 0xf0 then 0x90 else 0x80, if n = 0xf4 then 0x8f else 0xbf⟩
      else .inl none := by
  simp only [begin, ofNat_lt_iff hn, ofNat_eq_iff hn, UInt8.toNat_ofNat', Nat.mod_eq_of_lt hn,
    UInt8.reduceToNat]

/-- A byte that goes on with an encoding adds six bits to it. -/
theorem decode_tail {left bits n : ℕ} {low high : UInt8} (hlow : low.toNat ≤ n + 0x80)
    (hhigh : n + 0x80 ≤ high.toNat) (bs : List UInt8) :
    decode (some ⟨left, bits, low, high⟩) (UInt8.ofNat (n + 0x80) :: bs) =
      if 1 < left then decode (some ⟨left - 1, 64 * bits + n, 0x80, 0xbf⟩) bs
      else some (Char.ofNat (64 * bits + n)) :: decode none bs := by
  have hbyte : (UInt8.ofNat (n + 0x80)).toNat = n + 0x80 := by
    have hhigh' := high.toNat_lt
    rw [UInt8.toNat_ofNat', Nat.mod_eq_of_lt (by omega)]
  rw [decode, if_pos]
  · simp only [hbyte, Nat.add_sub_cancel]
  · rw [UInt8.le_iff_toNat_le, UInt8.le_iff_toNat_le, hbyte]
    exact ⟨hlow, hhigh⟩

theorem decode_any_tail {left bits n : ℕ} (hn : n < 64) (bs : List UInt8) :
    decode (some ⟨left, bits, 0x80, 0xbf⟩) (UInt8.ofNat (n + 0x80) :: bs) =
      if 1 < left then decode (some ⟨left - 1, 64 * bits + n, 0x80, 0xbf⟩) bs
      else some (Char.ofNat (64 * bits + n)) :: decode none bs := by
  refine decode_tail (Nat.le_add_left ..) ?_ bs
  simp only [UInt8.reduceToNat]
  omega

/-! ### Reading one character -/

variable {v : ℕ} (bs : List UInt8)

theorem decode_one (hv : v < 0x80) :
    decode none (UInt8.ofNat v :: bs) = some (Char.ofNat v) :: decode none bs := by
  rw [decode, begin_ofNat (by omega), if_pos hv]

theorem decode_two (hlow : 0x80 ≤ v) (hv : v < 0x800) :
    decode none (UInt8.ofNat (v / 64 % 32 + 0xc0) :: UInt8.ofNat (v % 64 + 0x80) :: bs) =
      some (Char.ofNat v) :: decode none bs := by
  have hlead : begin (UInt8.ofNat (v / 64 % 32 + 0xc0)) = .inr ⟨1, v / 64, 0x80, 0xbf⟩ := by
    rw [begin_ofNat (by omega), if_neg (by omega), if_neg (by omega), if_pos (by omega),
      Nat.add_sub_cancel, Nat.mod_eq_of_lt (by omega)]
  rw [decode, hlead]
  simp only
  rw [decode_any_tail (by omega), if_neg (by omega), Nat.div_add_mod]

/-- The second byte of three is bounded so that the number is neither smaller, so that two bytes would
    do, nor that of a surrogate. -/
theorem decode_three (hlow : 0x800 ≤ v) (hv : v < 0x10000) (hsurrogate : v < 0xd800 ∨ 0xdfff < v) :
    decode none (UInt8.ofNat (v / 4096 % 16 + 0xe0) :: UInt8.ofNat (v / 64 % 64 + 0x80) ::
      UInt8.ofNat (v % 64 + 0x80) :: bs) = some (Char.ofNat v) :: decode none bs := by
  have hlead : begin (UInt8.ofNat (v / 4096 % 16 + 0xe0)) =
      .inr ⟨2, v / 4096, if v / 4096 % 16 + 0xe0 = 0xe0 then 0xa0 else 0x80,
        if v / 4096 % 16 + 0xe0 = 0xed then 0x9f else 0xbf⟩ := by
    rw [begin_ofNat (by omega), if_neg (by omega), if_neg (by omega), if_neg (by omega),
      if_pos (by omega), Nat.add_sub_cancel, Nat.mod_eq_of_lt (by omega)]
  have hbits : 64 * (v / 4096) + v / 64 % 64 = v / 64 := by omega
  rw [decode, hlead]
  simp only
  rw [decode_tail, if_pos (by omega), decode_any_tail (by omega), if_neg (by omega), hbits,
    Nat.div_add_mod]
  · split_ifs <;> simp only [UInt8.reduceToNat] <;> omega
  · split_ifs <;> simp only [UInt8.reduceToNat] <;> omega

/-- The second byte of four is bounded so that the number is neither smaller, so that three bytes would
    do, nor too large. -/
theorem decode_four (hlow : 0x10000 ≤ v) (hv : v < 0x110000) :
    decode none (UInt8.ofNat (v / 262144 % 8 + 0xf0) :: UInt8.ofNat (v / 4096 % 64 + 0x80) ::
      UInt8.ofNat (v / 64 % 64 + 0x80) :: UInt8.ofNat (v % 64 + 0x80) :: bs) =
      some (Char.ofNat v) :: decode none bs := by
  have hlead : begin (UInt8.ofNat (v / 262144 % 8 + 0xf0)) =
      .inr ⟨3, v / 262144, if v / 262144 % 8 + 0xf0 = 0xf0 then 0x90 else 0x80,
        if v / 262144 % 8 + 0xf0 = 0xf4 then 0x8f else 0xbf⟩ := by
    rw [begin_ofNat (by omega), if_neg (by omega), if_neg (by omega), if_neg (by omega),
      if_neg (by omega), if_pos (by omega), Nat.add_sub_cancel, Nat.mod_eq_of_lt (by omega)]
  have hbits : 64 * (64 * (v / 262144) + v / 4096 % 64) + v / 64 % 64 = v / 64 := by omega
  rw [decode, hlead]
  simp only
  rw [decode_tail, if_pos (by omega), decode_any_tail (by omega), if_pos (by omega),
    decode_any_tail (by omega), if_neg (by omega), hbits, Nat.div_add_mod]
  · split_ifs <;> simp only [UInt8.reduceToNat] <;> omega
  · split_ifs <;> simp only [UInt8.reduceToNat] <;> omega

theorem decode_utf8EncodeChar (c : Char) :
    decode none (String.utf8EncodeChar c ++ bs) = some c :: decode none bs := by
  have hvalid : c.toNat < 0xd800 ∨ 0xdfff < c.toNat ∧ c.toNat < 0x110000 := c.valid
  conv_rhs => rw [← Char.ofNat_toNat c]
  rw [String.utf8EncodeChar, ← Char.toNat]
  split_ifs with hone htwo hthree
  · exact decode_one bs (by omega)
  · exact decode_two bs (by omega) (by omega)
  · exact decode_three bs (by omega) (by omega) (by omega)
  · exact decode_four bs (by omega) (by omega)

/-! ### Reading a text -/

theorem decode_encodeChars (cs : List Char) : decode none (encodeChars cs) = cs.map some := by
  induction cs with
  | nil => rfl
  | cons c cs ih => rw [encodeChars, List.flatMap_cons, decode_utf8EncodeChar, ih, List.map_cons]

theorem decodeLossy_encode (text : String) : decodeLossy (encode text) = text := by
  rw [decodeLossy, encode, decode_encodeChars, List.map_map]
  exact (congrArg String.ofList (List.map_id text.toList)).trans String.ofList_toList

/-- Only a text that begins with a byte order mark has bytes that begin with one. -/
theorem dropMark_encode {text : String} (h : text.toList.head? ≠ some '\ufeff') :
    dropMark (encode text) = encode text := by
  rw [dropMark.eq_def]
  split
  · next bytes hbytes =>
    have hmark : encodeChars ['\ufeff'] <+: encodeChars text.toList := ⟨bytes, hbytes.symm⟩
    obtain ⟨cs, hcs⟩ := encodeChars_isPrefix_iff.1 hmark
    exact absurd (by rw [← hcs]; rfl) h
  · rfl

/-- The bytes that encode a text are read as the text, unless it begins with a byte order mark. -/
theorem decodeLossy_dropMark_encode {text : String} (h : text.toList.head? ≠ some '\ufeff') :
    decodeLossy (dropMark (encode text)) = text := by
  rw [dropMark_encode h, decodeLossy_encode]

end PathGuard.Utf8
