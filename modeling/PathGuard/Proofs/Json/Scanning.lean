import Mathlib.Data.List.Basic
import Mathlib.Data.List.Forall2
import Mathlib.Data.List.TakeDrop
import PathGuard.Json.Reader

/-!
# Strings and numbers of JSON texts

How the strings and numbers of a JSON text are written, as a grammar, and that scanning follows it: what is
written is scanned to its end and no further, and nothing else is scanned at all.

## Main definitions

- `Json.Piece.Written`, `Json.Piece.Spells`: how a piece of a string is written, and the text that
  pieces spell
- `Json.Text.Written`: how a text is written between quotation marks
- `Json.NumberWritten`: how a number is written

## Main results

- `Json.scanString_of_written`, `Json.stringWritten_of_scanString`: scanning a string
- `Json.Piece.decode_eq_some_iff`: the text of its pieces
- `Json.scanNumber_of_written`, `Json.numberWritten_of_scanNumber`: scanning a number
-/

namespace PathGuard.Json

/-! ### Strings -/

/-- The letters that stand for a character after a backslash. -/
def escapeLetters : List (Char × Char) :=
  [('\x22', '\x22'), ('\\', '\\'), ('/', '/'), ('b', '\x08'), ('f', '\x0c'), ('n', '\n'), ('r', '\r'),
    ('t', '\t')]

/-- How a piece of a string is written: as the character that it is, unless it has to be escaped, by a
    letter, or by four hexadecimal digits. -/
inductive Piece.Written : Piece → List Char → Prop where
  | plain {c : Char} (hquote : c ≠ '\x22') (hslash : c ≠ '\\') (hcontrol : 0x20 ≤ c.toNat) :
      Written (.char c) [c]
  | letter {e c : Char} (h : (e, c) ∈ escapeLetters) : Written (.char c) ['\\', e]
  | unit {a b c d : Char} {i j k l : ℕ} (ha : Ascii.hexValue? a = some i)
      (hb : Ascii.hexValue? b = some j) (hc : Ascii.hexValue? c = some k)
      (hd : Ascii.hexValue? d = some l) :
      Written (.unit (4096 * i + 256 * j + 16 * k + l)) ['\\', 'u', a, b, c, d]

/-- The text that pieces spell. A unit that is no surrogate is a character, and so are a high and a low
    surrogate one after the other; other surrogates spell nothing. -/
inductive Piece.Spells : List Piece → List Char → Prop where
  | nil : Spells [] []
  | char (c : Char) {ps : List Piece} {cs : List Char} (h : Spells ps cs) :
      Spells (.char c :: ps) (c :: cs)
  | unit {n : ℕ} (hhigh : isHighSurrogate n = false) (hlow : isLowSurrogate n = false)
      {ps : List Piece} {cs : List Char} (h : Spells ps cs) : Spells (.unit n :: ps) (Char.ofNat n :: cs)
  | pair {high low : ℕ} (hhigh : isHighSurrogate high = true) (hlow : isLowSurrogate low = true)
      {ps : List Piece} {cs : List Char} (h : Spells ps cs) :
      Spells (.unit high :: .unit low :: ps) (ofSurrogates high low :: cs)

/-- How a text is written between quotation marks. -/
inductive Text.Written : Text → List Char → Prop where
  | unicode {ps : List Piece} {parts : List (List Char)} {cs : List Char}
      (hparts : List.Forall₂ Piece.Written ps parts) (hspells : Piece.Spells ps cs) :
      Written (.unicode (String.ofList cs)) parts.flatten
  | broken {ps : List Piece} {parts : List (List Char)}
      (hparts : List.Forall₂ Piece.Written ps parts) (hspells : ∀ cs, ¬ Piece.Spells ps cs) :
      Written .broken parts.flatten

theorem hexUnit?_eq_some_iff {a b c d : Char} {n : ℕ} :
    hexUnit? a b c d = some n ↔ ∃ i j k l, Ascii.hexValue? a = some i ∧ Ascii.hexValue? b = some j ∧
      Ascii.hexValue? c = some k ∧ Ascii.hexValue? d = some l ∧
      n = 4096 * i + 256 * j + 16 * k + l := by
  simp only [hexUnit?, Option.bind_eq_bind, Option.bind_eq_some_iff, Option.pure_def, Option.some.injEq]
  constructor
  · rintro ⟨i, hi, j, hj, k, hk, l, hl, rfl⟩
    exact ⟨i, j, k, l, hi, hj, hk, hl, by omega⟩
  · rintro ⟨i, j, k, l, hi, hj, hk, hl, rfl⟩
    exact ⟨i, hi, j, hj, k, hk, l, hl, by omega⟩

theorem escapedChar?_eq_some_iff {e c : Char} : escapedChar? e = some c ↔ (e, c) ∈ escapeLetters := by
  constructor
  · intro h
    unfold escapedChar? at h
    split at h <;> simp_all [escapeLetters, eq_comm]
  · intro h
    simp only [escapeLetters, List.mem_cons, Prod.mk.injEq, List.not_mem_nil, or_false] at h
    rcases h with ⟨rfl, rfl⟩ | ⟨rfl, rfl⟩ | ⟨rfl, rfl⟩ | ⟨rfl, rfl⟩ | ⟨rfl, rfl⟩ |
      ⟨rfl, rfl⟩ | ⟨rfl, rfl⟩ | ⟨rfl, rfl⟩ <;> rfl

/-- A piece that is written is scanned, whatever follows. -/
theorem scanString_piece {p : Piece} {part : List Char} (h : p.Written part) (cs : List Char) :
    scanString (part ++ cs) = (scanString cs).map fun (ps, rest) => (p :: ps, rest) := by
  cases h with
  | plain hquote hslash hcontrol =>
    rw [List.singleton_append,
      scanString.eq_5 _ _ hquote (fun _ _ _ _ _ h => absurd h hslash) (fun _ _ h => absurd h hslash),
      if_neg (by omega)]
    rcases scanString cs with _ | ⟨ps, rest⟩ <;> rfl
  | @letter e c h =>
    have he : e ≠ 'u' := by
      rintro rfl
      revert h
      simp [escapeLetters]
    rw [List.cons_append, List.singleton_append,
      scanString.eq_4 _ _ (fun _ _ _ _ _ h => absurd h he), escapedChar?_eq_some_iff.2 h]
    rcases scanString cs with _ | ⟨ps, rest⟩ <;> rfl
  | unit ha hb hc hd =>
    simp only [List.cons_append, List.nil_append]
    rw [scanString.eq_3, hexUnit?_eq_some_iff.2 ⟨_, _, _, _, ha, hb, hc, hd, rfl⟩]
    rcases scanString cs with _ | ⟨ps, rest⟩ <;> rfl

theorem scanString_of_written {ps : List Piece} {parts : List (List Char)}
    (h : List.Forall₂ Piece.Written ps parts) (rest : List Char) :
    scanString (parts.flatten ++ '\x22' :: rest) = some (ps, rest) := by
  induction h with
  | nil => rfl
  | cons hp _ ih => rw [List.flatten_cons, List.append_assoc, scanString_piece hp, ih, Option.map_some]

/-- The pieces of a string are written one after the other, up to its closing mark. -/
def StringWritten (ps : List Piece) (cs rest : List Char) : Prop :=
  ∃ parts, List.Forall₂ Piece.Written ps parts ∧ cs = parts.flatten ++ '\x22' :: rest

/-- A piece is scanned, and then what it leaves. -/
theorem stringWritten_of_piece {p : Piece} {part more rest : List Char} {ps : List Piece}
    (hp : p.Written part) (h : scanString (part ++ more) = some (ps, rest))
    (ih : ∀ {later}, scanString more = some (later, rest) → StringWritten later more rest) :
    StringWritten ps (part ++ more) rest := by
  rw [scanString_piece hp, Option.map_eq_some_iff] at h
  obtain ⟨⟨later, rest'⟩, hlater, heq⟩ := h
  obtain ⟨rfl, rfl⟩ := Prod.mk.inj heq
  obtain ⟨parts, hparts, rfl⟩ := ih hlater
  exact ⟨part :: parts, .cons hp hparts, by simp⟩

/-- What is scanned as a string was written as one. -/
theorem stringWritten_of_scanString {cs rest : List Char} {ps : List Piece}
    (h : scanString cs = some (ps, rest)) : StringWritten ps cs rest := by
  induction cs using scanString.induct generalizing ps with
  | case1 => cases h
  | case2 more =>
    obtain ⟨rfl, rfl⟩ := Prod.mk.inj (Option.some.inj h)
    exact ⟨[], .nil, rfl⟩
  | case3 a b c d more ih =>
    cases hunit : hexUnit? a b c d with
    | none =>
      rw [scanString.eq_3, hunit] at h
      cases h
    | some n =>
      obtain ⟨i, j, k, l, hi, hj, hk, hl, -⟩ := hexUnit?_eq_some_iff.1 hunit
      exact stringWritten_of_piece (.unit hi hj hk hl) h ih
  | case4 c more hnot ih =>
    cases hletter : escapedChar? c with
    | none =>
      rw [scanString.eq_4 _ _ hnot, hletter] at h
      cases h
    | some e => exact stringWritten_of_piece (.letter (escapedChar?_eq_some_iff.1 hletter)) h ih
  | case5 c more hquote hunit hletter hcontrol ih =>
    rw [scanString.eq_5 _ _ hquote hunit hletter, if_pos hcontrol] at h
    cases h
  | case6 c more hquote hunit hletter hcontrol ih =>
    by_cases hslash : c = '\\'
    · -- a backslash is the last character, so the string has no end
      cases more with
      | nil =>
        rw [scanString.eq_5 _ _ hquote hunit hletter, if_neg hcontrol] at h
        cases h
      | cons d more => exact (hletter d more hslash rfl).elim
    · exact stringWritten_of_piece (.plain hquote hslash (by omega)) h ih

theorem Piece.decode_unit {n : ℕ} (hhigh : isHighSurrogate n = false)
    (hlow : isLowSurrogate n = false) (ps : List Piece) :
    Piece.decode (.unit n :: ps) = (Piece.decode ps).map (Char.ofNat n :: ·) := by
  have hneither : ¬ (isHighSurrogate n || isLowSurrogate n) = true := by simp [hhigh, hlow]
  cases ps with
  | nil => rw [Piece.decode.eq_4 _ _ (fun _ _ h => by cases h), if_neg hneither]
  | cons p ps =>
    cases p with
    | char c => rw [Piece.decode.eq_4 _ _ (fun _ _ h => by cases h), if_neg hneither]
    | unit low => rw [Piece.decode, if_neg (by simp [hhigh]), if_neg (by simp [hlow])]

/-- The text of pieces is what they spell. -/
theorem Piece.decode_eq_some_iff {ps : List Piece} {cs : List Char} :
    Piece.decode ps = some cs ↔ Piece.Spells ps cs := by
  constructor
  · intro h
    induction ps using Piece.decode.induct generalizing cs with
    | case1 =>
      obtain rfl := Option.some.inj h
      exact .nil
    | case2 c ps ih =>
      obtain ⟨later, hlater, rfl⟩ := Option.map_eq_some_iff.1 h
      exact .char c (ih hlater)
    | case3 high low ps hhigh hlow ih =>
      rw [Piece.decode, if_pos hhigh, if_pos hlow, Option.map_eq_some_iff] at h
      obtain ⟨later, hlater, rfl⟩ := h
      exact .pair hhigh hlow (ih hlater)
    | case4 high low ps hhigh hlow =>
      rw [Piece.decode, if_pos hhigh, if_neg hlow] at h
      cases h
    | case5 high low ps hhigh hlow =>
      rw [Piece.decode, if_neg hhigh, if_pos hlow] at h
      cases h
    | case6 high low ps hhigh hlow ih =>
      rw [Piece.decode, if_neg hhigh, if_neg hlow, Option.map_eq_some_iff] at h
      obtain ⟨later, hlater, rfl⟩ := h
      exact .unit (Bool.eq_false_iff.2 hhigh) (Bool.eq_false_iff.2 hlow) (ih hlater)
    | case7 n ps hlast hsurrogate =>
      rw [Piece.decode.eq_4 _ _ hlast, if_pos hsurrogate] at h
      cases h
    | case8 n ps hlast hsurrogate ih =>
      rw [Piece.decode.eq_4 _ _ hlast, if_neg hsurrogate, Option.map_eq_some_iff] at h
      obtain ⟨later, hlater, rfl⟩ := h
      rw [Bool.or_eq_true, not_or] at hsurrogate
      exact .unit (Bool.eq_false_iff.2 hsurrogate.1) (Bool.eq_false_iff.2 hsurrogate.2) (ih hlater)
  · intro h
    induction h with
    | nil => rfl
    | char c _ ih => rw [Piece.decode, ih, Option.map_some]
    | unit hhigh hlow _ ih => rw [Piece.decode_unit hhigh hlow, ih, Option.map_some]
    | pair hhigh hlow _ ih =>
      rw [Piece.decode, if_pos hhigh, if_pos hlow, ih, Option.map_some]

theorem Text.written_ofPieces {ps : List Piece} {parts : List (List Char)}
    (hparts : List.Forall₂ Piece.Written ps parts) : (Text.ofPieces ps).Written parts.flatten := by
  rw [Text.ofPieces]
  cases hdecode : Piece.decode ps with
  | some cs => exact .unicode hparts (Piece.decode_eq_some_iff.1 hdecode)
  | none =>
    refine .broken hparts fun cs hspells => ?_
    rw [Piece.decode_eq_some_iff.2 hspells] at hdecode
    cases hdecode

/-- A text that is written between quotation marks is scanned as the pieces that it is made of. -/
theorem Text.Written.exists_scanString {text : Text} {cs : List Char} (h : text.Written cs)
    (rest : List Char) :
    ∃ ps, scanString (cs ++ '\x22' :: rest) = some (ps, rest) ∧ .ofPieces ps = text := by
  cases h with
  | unicode hparts hspells =>
    refine ⟨_, scanString_of_written hparts rest, ?_⟩
    rw [Text.ofPieces, Piece.decode_eq_some_iff.2 hspells]
  | @broken ps _ hparts hspells =>
    refine ⟨_, scanString_of_written hparts rest, ?_⟩
    have hnone : Piece.decode ps = none :=
      Option.eq_none_iff_forall_not_mem.2 fun cs hcs => hspells cs (Piece.decode_eq_some_iff.1 hcs)
    rw [Text.ofPieces, hnone]

/-! ### Numbers -/

/-- Digits, at least one. -/
def AreDigits (cs : List Char) : Prop :=
  cs ≠ [] ∧ ∀ c ∈ cs, c.isDigit = true

/-- How the part of a number before the point is written: without leading zeros. -/
inductive WholeWritten : List Char → Prop where
  | zero : WholeWritten ['0']
  | digits {c : Char} {cs : List Char} (h : AreDigits (c :: cs)) (hzero : c ≠ '0') :
      WholeWritten (c :: cs)

/-- How the part of a number after the point is written, if there is one. -/
inductive FractionWritten : List Char → Prop where
  | none : FractionWritten []
  | digits {cs : List Char} (h : AreDigits cs) : FractionWritten ('.' :: cs)

/-- How the exponent of a number is written, if there is one. -/
inductive ExponentWritten : List Char → Prop where
  | none : ExponentWritten []
  | digits {e : Char} {sign cs : List Char} (he : e = 'e' ∨ e = 'E')
      (hsign : sign = [] ∨ sign = ['+'] ∨ sign = ['-']) (h : AreDigits cs) :
      ExponentWritten (e :: sign ++ cs)

/-- How a number is written. -/
inductive NumberWritten : List Char → Prop where
  | parts {sign whole fraction exponent : List Char} (hsign : sign = [] ∨ sign = ['-'])
      (hwhole : WholeWritten whole) (hfraction : FractionWritten fraction)
      (hexponent : ExponentWritten exponent) :
      NumberWritten (sign ++ whole ++ fraction ++ exponent)

/-- A text that does not go on with the number before it. -/
def EndsNumber (rest : List Char) : Prop :=
  ∀ c, rest.head? = some c → c.isDigit = false ∧ c ≠ '.' ∧ c ≠ 'e' ∧ c ≠ 'E'

section Digits

variable {cs digits rest : List Char}

theorem scanDigits_of_areDigits (h : AreDigits cs)
    (hrest : ∀ c, rest.head? = some c → c.isDigit = false) :
    scanDigits (cs ++ rest) = some (cs, rest) := by
  have htake : rest.takeWhile Char.isDigit = [] := by
    cases rest with
    | nil => rfl
    | cons c rest => rw [List.takeWhile_cons_of_neg (by simp [hrest c rfl])]
  have hdrop : rest.dropWhile Char.isDigit = rest := by
    cases rest with
    | nil => rfl
    | cons c rest => rw [List.dropWhile_cons_of_neg (by simp [hrest c rfl])]
  rw [scanDigits, List.span_eq_takeWhile_dropWhile, List.takeWhile_append_of_pos h.2,
    List.dropWhile_append_of_pos h.2, htake, hdrop, List.append_nil]
  cases cs with
  | nil => exact absurd rfl h.1
  | cons c cs => rfl

theorem areDigits_of_scanDigits (h : scanDigits cs = some (digits, rest)) :
    AreDigits digits ∧ cs = digits ++ rest := by
  rw [scanDigits, List.span_eq_takeWhile_dropWhile] at h
  have hsplit := List.takeWhile_append_dropWhile (p := Char.isDigit) (l := cs)
  have hall : ∀ c ∈ cs.takeWhile Char.isDigit, c.isDigit = true :=
    List.all_eq_true.1 List.all_takeWhile
  cases htake : cs.takeWhile Char.isDigit with
  | nil =>
    rw [htake] at h
    cases h
  | cons d ds =>
    rw [htake] at h hsplit hall
    obtain ⟨rfl, rfl⟩ := Prod.mk.inj (Option.some.inj h)
    exact ⟨⟨List.cons_ne_nil d ds, hall⟩, hsplit.symm⟩

end Digits

section Number

variable {cs part rest : List Char}

theorem scanWhole_of_written (h : WholeWritten cs)
    (hrest : ∀ c, rest.head? = some c → c.isDigit = false) :
    scanWhole (cs ++ rest) = some (cs, rest) := by
  cases h with
  | zero => rfl
  | digits h hzero =>
    rw [List.cons_append, scanWhole.eq_2 _ fun rest h => hzero (List.cons.inj h).1,
      ← List.cons_append]
    exact scanDigits_of_areDigits h hrest

theorem wholeWritten_of_scanWhole (h : scanWhole cs = some (part, rest)) :
    WholeWritten part ∧ cs = part ++ rest := by
  unfold scanWhole at h
  split at h
  · obtain ⟨rfl, rfl⟩ := Prod.mk.inj (Option.some.inj h)
    exact ⟨.zero, rfl⟩
  · next hzero =>
    obtain ⟨hdigits, rfl⟩ := areDigits_of_scanDigits h
    cases part with
    | nil => exact absurd rfl hdigits.1
    | cons c part => exact ⟨.digits hdigits fun hc => hzero (part ++ rest) (by rw [hc]; rfl), rfl⟩

theorem scanFraction_of_written (h : FractionWritten cs)
    (hrest : ∀ c, rest.head? = some c → c.isDigit = false ∧ c ≠ '.') :
    scanFraction (cs ++ rest) = some (cs, rest) := by
  cases h with
  | none =>
    rw [List.nil_append, scanFraction.eq_2 _ fun more h => (hrest '.' (by rw [h]; rfl)).2 rfl]
  | digits h =>
    rw [List.cons_append, scanFraction, scanDigits_of_areDigits h fun c hc => (hrest c hc).1]
    rfl

theorem fractionWritten_of_scanFraction (h : scanFraction cs = some (part, rest)) :
    FractionWritten part ∧ cs = part ++ rest := by
  unfold scanFraction at h
  split at h
  · obtain ⟨⟨digits, more⟩, hdigits, heq⟩ := Option.map_eq_some_iff.1 h
    obtain ⟨rfl, rfl⟩ := Prod.mk.inj heq
    obtain ⟨hare, rfl⟩ := areDigits_of_scanDigits hdigits
    exact ⟨.digits hare, rfl⟩
  · obtain ⟨rfl, rfl⟩ := Prod.mk.inj (Option.some.inj h)
    exact ⟨.none, rfl⟩

/-- Digits do not begin with a sign. -/
theorem scanSign_append {sign : List Char} (hsign : sign = [] ∨ sign = ['+'] ∨ sign = ['-'])
    (h : AreDigits cs) (rest : List Char) : scanSign (sign ++ (cs ++ rest)) = (sign, cs ++ rest) := by
  rcases hsign with rfl | rfl | rfl
  · cases cs with
    | nil => exact absurd rfl h.1
    | cons c cs =>
      have hc := h.2 c List.mem_cons_self
      rw [List.nil_append, List.cons_append, scanSign.eq_3]
      · rintro more heq
        rw [(List.cons.inj heq).1] at hc
        cases hc
      · rintro more heq
        rw [(List.cons.inj heq).1] at hc
        cases hc
  · rfl
  · rfl

theorem of_scanSign {sign : List Char} (h : scanSign cs = (sign, rest)) :
    (sign = [] ∨ sign = ['+'] ∨ sign = ['-']) ∧ cs = sign ++ rest := by
  unfold scanSign at h
  split at h <;> obtain ⟨rfl, rfl⟩ := Prod.mk.inj h <;> simp

theorem scanExponent_of_written (h : ExponentWritten cs) (hrest : EndsNumber rest) :
    scanExponent (cs ++ rest) = some (cs, rest) := by
  cases h with
  | none =>
    cases rest with
    | nil => rfl
    | cons c rest =>
      obtain ⟨-, -, hsmall, hcapital⟩ := hrest c rfl
      rw [List.nil_append, scanExponent, if_neg (by simp [hsmall, hcapital])]
  | digits he hsign h =>
    rw [List.cons_append, List.cons_append, List.append_assoc, scanExponent, if_pos he,
      scanSign_append hsign h]
    simp only [scanDigits_of_areDigits h fun c hc => (hrest c hc).1, Option.map_some]
    rfl

theorem exponentWritten_of_scanExponent (h : scanExponent cs = some (part, rest)) :
    ExponentWritten part ∧ cs = part ++ rest := by
  cases cs with
  | nil =>
    obtain ⟨rfl, rfl⟩ := Prod.mk.inj (Option.some.inj h)
    exact ⟨.none, rfl⟩
  | cons e cs =>
    rw [scanExponent] at h
    split at h
    · next he =>
      rcases hsplit : scanSign cs with ⟨sign, unsigned⟩
      rw [hsplit] at h
      obtain ⟨⟨digits, more⟩, hdigits, heq⟩ := Option.map_eq_some_iff.1 h
      obtain ⟨rfl, rfl⟩ := Prod.mk.inj heq
      obtain ⟨hare, rfl⟩ := areDigits_of_scanDigits hdigits
      obtain ⟨hsign, rfl⟩ := of_scanSign hsplit
      exact ⟨.digits he hsign hare, by simp⟩
    · obtain ⟨rfl, rfl⟩ := Prod.mk.inj (Option.some.inj h)
      exact ⟨.none, rfl⟩

theorem head?_append_of_fraction {exponent : List Char} (hexponent : ExponentWritten exponent)
    (hrest : EndsNumber rest) {c : Char} (h : (exponent ++ rest).head? = some c) :
    c.isDigit = false ∧ c ≠ '.' := by
  cases hexponent with
  | none => exact ⟨(hrest c h).1, (hrest c h).2.1⟩
  | digits he =>
    obtain rfl := Option.some.inj h
    rcases he with rfl | rfl <;> decide

theorem head?_append_of_whole {fraction exponent : List Char} (hfraction : FractionWritten fraction)
    (hexponent : ExponentWritten exponent) (hrest : EndsNumber rest) {c : Char}
    (h : (fraction ++ (exponent ++ rest)).head? = some c) : c.isDigit = false := by
  cases hfraction with
  | none => exact (head?_append_of_fraction hexponent hrest h).1
  | digits =>
    obtain rfl := Option.some.inj h
    decide

/-- Scans a number after its sign. -/
def scanUnsigned (sign cs : List Char) : Option (List Char × List Char) := do
  let (whole, rest) ← scanWhole cs
  let (fraction, rest) ← scanFraction rest
  let (exponent, rest) ← scanExponent rest
  return (sign ++ whole ++ fraction ++ exponent, rest)

theorem scanUnsigned_eq_some_iff {sign : List Char} :
    scanUnsigned sign cs = some (part, rest) ↔
      ∃ whole afterWhole fraction afterFraction exponent, scanWhole cs = some (whole, afterWhole) ∧
        scanFraction afterWhole = some (fraction, afterFraction) ∧
        scanExponent afterFraction = some (exponent, rest) ∧
        part = sign ++ whole ++ fraction ++ exponent := by
  simp only [scanUnsigned, Option.bind_eq_bind, Option.bind_eq_some_iff, Prod.exists, Option.pure_def,
    Option.some.injEq, Prod.mk.injEq]
  constructor
  · rintro ⟨whole, afterWhole, hwhole, fraction, afterFraction, hfraction, exponent, afterExponent,
      hexponent, rfl, rfl⟩
    exact ⟨whole, afterWhole, fraction, afterFraction, exponent, hwhole, hfraction, hexponent, rfl⟩
  · rintro ⟨whole, afterWhole, fraction, afterFraction, exponent, hwhole, hfraction, hexponent, rfl⟩
    exact ⟨whole, afterWhole, hwhole, fraction, afterFraction, hfraction, exponent, rest, hexponent,
      rfl, rfl⟩

theorem scanNumber_minus (cs : List Char) : scanNumber ('-' :: cs) = scanUnsigned ['-'] cs :=
  rfl

theorem scanNumber_of_head?_ne (h : cs.head? ≠ some '-') : scanNumber cs = scanUnsigned [] cs := by
  rw [scanNumber.eq_2 _ fun rest hminus => h (by rw [hminus]; rfl)]
  rfl

/-- A number that is written is scanned to its end, if what follows does not go on with it. -/
theorem scanNumber_of_written (h : NumberWritten cs) (hrest : EndsNumber rest) :
    scanNumber (cs ++ rest) = some (cs, rest) := by
  obtain @⟨sign, whole, fraction, exponent, hsign, hwhole, hfraction, hexponent⟩ := h
  have hscan : scanUnsigned sign (whole ++ (fraction ++ (exponent ++ rest))) =
      some (sign ++ whole ++ fraction ++ exponent, rest) :=
    scanUnsigned_eq_some_iff.2 ⟨whole, _, fraction, _, exponent,
      scanWhole_of_written hwhole fun c => head?_append_of_whole hfraction hexponent hrest,
      scanFraction_of_written hfraction fun c => head?_append_of_fraction hexponent hrest,
      scanExponent_of_written hexponent hrest, rfl⟩
  rw [← hscan, List.append_assoc, List.append_assoc, List.append_assoc]
  rcases hsign with rfl | rfl
  · refine scanNumber_of_head?_ne fun hminus => ?_
    cases hwhole with
    | zero => cases hminus
    | digits h =>
      obtain rfl := Option.some.inj hminus
      exact absurd (h.2 '-' List.mem_cons_self) (by decide)
  · exact scanNumber_minus _

/-- What is scanned as a number was written as one. -/
theorem numberWritten_of_scanNumber (h : scanNumber cs = some (part, rest)) :
    NumberWritten part ∧ cs = part ++ rest := by
  have hsplit : ∃ sign unsigned, (sign = [] ∨ sign = ['-']) ∧ cs = sign ++ unsigned ∧
      scanUnsigned sign unsigned = some (part, rest) := by
    by_cases hminus : cs.head? = some '-'
    · obtain ⟨more, rfl⟩ := List.head?_eq_some_iff.1 hminus
      exact ⟨['-'], more, .inr rfl, rfl, h⟩
    · rw [scanNumber_of_head?_ne hminus] at h
      exact ⟨[], cs, .inl rfl, rfl, h⟩
  obtain ⟨sign, unsigned, hsign, rfl, hscan⟩ := hsplit
  obtain ⟨whole, afterWhole, fraction, afterFraction, exponent, hwhole, hfraction, hexponent, rfl⟩ :=
    scanUnsigned_eq_some_iff.1 hscan
  obtain ⟨hwhole', rfl⟩ := wholeWritten_of_scanWhole hwhole
  obtain ⟨hfraction', rfl⟩ := fractionWritten_of_scanFraction hfraction
  obtain ⟨hexponent', rfl⟩ := exponentWritten_of_scanExponent hexponent
  exact ⟨.parts hsign hwhole' hfraction' hexponent', by simp⟩

end Number

end PathGuard.Json
