/-!
# UTF-8

Text as bytes. Decoding goes over the bytes once and gives a character for each valid encoding, and
one gap for each longest part of an encoding that is not completed, or byte that begins none.

## Main definitions

- `Utf8.encode`: the bytes of a text
- `Utf8.decode`: the characters and gaps of bytes
- `Utf8.decodeStrict?`: the text of bytes without gaps
- `Utf8.decodeLossy`: the text of bytes, with a replacement character for each gap
-/

namespace PathGuard.Utf8

/-- An encoding that has begun: how many bytes are to come, the bits so far, and the range of the
    next byte. -/
structure Pending where
  left : Nat
  bits : Nat
  low : UInt8
  high : UInt8

/-- What the first byte of an encoding begins. A gap is written as `none`. -/
def begin (b : UInt8) : Option Char ⊕ Pending :=
  if b < 0x80 then .inl (some (Char.ofNat b.toNat))
  else if b < 0xc2 then .inl none
  else if b < 0xe0 then .inr ⟨1, b.toNat - 0xc0, 0x80, 0xbf⟩
  else if b < 0xf0 then
    .inr ⟨2, b.toNat - 0xe0, if b = 0xe0 then 0xa0 else 0x80, if b = 0xed then 0x9f else 0xbf⟩
  else if b < 0xf5 then
    .inr ⟨3, b.toNat - 0xf0, if b = 0xf0 then 0x90 else 0x80, if b = 0xf4 then 0x8f else 0xbf⟩
  else .inl none

/-- The characters and gaps of bytes, after an encoding that may have begun. -/
def decode : Option Pending → List UInt8 → List (Option Char)
  | none, [] => []
  | some _, [] => [none]
  | none, b :: bs =>
    match begin b with
    | .inl item => item :: decode none bs
    | .inr pending => decode (some pending) bs
  | some pending, b :: bs =>
    if pending.low ≤ b ∧ b ≤ pending.high then
      let bits := 64 * pending.bits + (b.toNat - 0x80)
      if 1 < pending.left then decode (some ⟨pending.left - 1, bits, 0x80, 0xbf⟩) bs
      else some (Char.ofNat bits) :: decode none bs
    else match begin b with
      | .inl item => none :: item :: decode none bs
      | .inr pending => none :: decode (some pending) bs

/-- The text of bytes, unless they have a gap. -/
def decodeStrict? (bytes : List UInt8) : Option String :=
  ((decode none bytes).mapM id).map String.ofList

/-- The text of bytes, with a replacement character for each gap. -/
def decodeLossy (bytes : List UInt8) : String :=
  String.ofList ((decode none bytes).map (·.getD '\ufffd'))

def encode (text : String) : List UInt8 :=
  text.toList.flatMap String.utf8EncodeChar

/-- What follows a byte order mark at the start of bytes. -/
def dropMark : List UInt8 → List UInt8
  | 0xef :: 0xbb :: 0xbf :: bytes => bytes
  | bytes => bytes

end PathGuard.Utf8
