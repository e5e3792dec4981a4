import PathGuard.Proofs.Json.Reading

/-!
# Layouts of JSON values

Both layouts of a value write it, whatever characters its strings hold, so that reading either gives the
value back. Numbers are kept as they are spelled, and have to be spelled as numbers.

## Main definitions

- `Json.IsLegible`: the values whose numbers are spelled as numbers

## Main results

- `Json.exists_written_quote`: a string between quotation marks
- `Json.written_compact`, `Json.written_pretty`: the two layouts
- `Json.documentWritten_pretty`: the indented layout with blanks after it is a document
- `Json.parse?_compact`, `Json.parse?_pretty`: reading them back
-/

namespace PathGuard.Json

/-! ### Strings -/

theorem hexValue?_hexDigit : ∀ n < 16, Ascii.hexValue? (Ascii.hexDigit n) = some n := by
  decide

theorem exists_written_escape (c : Char) :
    ∃ p : Piece, p.Written (escape c) ∧
      ∀ ps cs, Piece.Spells ps cs → Piece.Spells (p :: ps) (c :: cs) := by
  have hletter : ∀ e, (e, c) ∈ escapeLetters → escape c = ['\\', e] →
      ∃ p : Piece, p.Written (escape c) ∧
        ∀ ps cs, Piece.Spells ps cs → Piece.Spells (p :: ps) (c :: cs) := by
    intro e he heq
    exact ⟨.char c, heq ▸ .letter he, fun _ _ h => .char c h⟩
  by_cases hc : c ∈ ['\x22', '\\', '\x08', '\x0c', '\n', '\r', '\t']
  · simp only [List.mem_cons, List.not_mem_nil, or_false] at hc
    rcases hc with rfl | rfl | rfl | rfl | rfl | rfl | rfl
    · exact hletter '\x22' (by decide) rfl
    · exact hletter '\\' (by decide) rfl
    · exact hletter 'b' (by decide) rfl
    · exact hletter 'f' (by decide) rfl
    · exact hletter 'n' (by decide) rfl
    · exact hletter 'r' (by decide) rfl
    · exact hletter 't' (by decide) rfl
  · simp only [List.mem_cons, List.not_mem_nil, or_false, not_or] at hc
    obtain ⟨hquote, hslash, hb, hf, hn, hr, ht⟩ := hc
    by_cases hcontrol : c.toNat < 0x20
    · -- a control character without a letter is written by its number, which is no surrogate
      have hescape : escape c = ['\\', 'u', '0', '0', Ascii.hexDigit (c.toNat / 16),
          Ascii.hexDigit (c.toNat % 16)] := by
        rw [escape.eq_8 _ hquote hslash hb hf hn hr ht, if_pos hcontrol]
      have hzero : Ascii.hexValue? '0' = some 0 := rfl
      have hwritten := Piece.Written.unit hzero hzero
        (hexValue?_hexDigit (c.toNat / 16) (by omega)) (hexValue?_hexDigit (c.toNat % 16) (by omega))
      have hvalue : 4096 * 0 + 256 * 0 + 16 * (c.toNat / 16) + c.toNat % 16 = c.toNat := by omega
      rw [hvalue] at hwritten
      refine ⟨.unit c.toNat, hescape ▸ hwritten, fun ps cs h => ?_⟩
      have hspells := Piece.Spells.unit (n := c.toNat)
        (by simp only [isHighSurrogate, Bool.and_eq_false_iff, decide_eq_false_iff_not]; omega)
        (by simp only [isLowSurrogate, Bool.and_eq_false_iff, decide_eq_false_iff_not]; omega) h
      rwa [Char.ofNat_toNat] at hspells
    · have hescape : escape c = [c] := by
        rw [escape.eq_8 _ hquote hslash hb hf hn hr ht, if_neg hcontrol]
      exact ⟨.char c, hescape ▸ .plain hquote hslash (by omega), fun _ _ h => .char c h⟩

theorem exists_written_escapes (cs : List Char) :
    ∃ ps parts, List.Forall₂ Piece.Written ps parts ∧ parts.flatten = cs.flatMap escape ∧
      Piece.Spells ps cs := by
  induction cs with
  | nil => exact ⟨[], [], .nil, rfl, .nil⟩
  | cons c cs ih =>
    obtain ⟨p, hp, hspells⟩ := exists_written_escape c
    obtain ⟨ps, parts, hparts, hflatten, hps⟩ := ih
    refine ⟨p :: ps, escape c :: parts, .cons hp hparts, ?_, hspells ps cs hps⟩
    rw [List.flatten_cons, hflatten, List.flatMap_cons]

/-- A string is written between its quotation marks. -/
theorem exists_written_quote (text : Text) :
    ∃ cs, quote text = '\x22' :: cs ++ ['\x22'] ∧ text.Written cs := by
  cases text with
  | unicode text =>
    obtain ⟨ps, parts, hparts, hflatten, hspells⟩ := exists_written_escapes text.toList
    refine ⟨text.toList.flatMap escape, rfl, ?_⟩
    have h := Text.Written.unicode hparts hspells
    rwa [String.ofList_toList, hflatten] at h
  | broken =>
    have hunit : Piece.Written (.unit 0xD800) ['\\', 'u', 'd', '8', '0', '0'] :=
      .unit (i := 13) (j := 8) (k := 0) (l := 0) rfl rfl rfl rfl
    refine ⟨['\\', 'u', 'd', '8', '0', '0'], rfl, .broken (.cons hunit .nil) fun cs hspells => ?_⟩
    cases hspells with
    | unit hhigh => cases hhigh

/-! ### Values -/

/-- A value whose numbers are spelled as numbers. -/
inductive IsLegible : Json → Prop where
  | null : IsLegible null
  | bool (b : Bool) : IsLegible (bool b)
  | number {literal : String} (h : NumberWritten literal.toList) : IsLegible (number literal)
  | string (text : Text) : IsLegible (string text)
  | array {items : List Json} (h : ∀ item ∈ items, IsLegible item) : IsLegible (array items)
  | object {members : List (Text × Json)} (h : ∀ member ∈ members, IsLegible member.2) :
      IsLegible (object members)

theorem areBlank_nil : AreBlank [] := by
  simp [AreBlank]

section Elements

variable {before close : List Char}

/-- Items are written one after the other, with the same blanks before each. -/
theorem exists_itemsWritten (layOne : Json → List Char) (layLater : List Json → List Char)
    (hbefore : AreBlank before) (hclose : AreBlank close) (hend : layLater [] = close ++ [']'])
    (hmore : ∀ item items,
      layLater (item :: items) = ',' :: before ++ layOne item ++ layLater items)
    {item : Json} {items : List Json} (h : ∀ i ∈ item :: items, Written i (layOne i)) :
    ∃ cs, layOne item ++ layLater items = cs ++ [']'] ∧ ItemsWritten (item :: items) cs := by
  induction items generalizing item with
  | nil => exact ⟨_, by rw [hend, List.append_assoc], .last (h item List.mem_cons_self) hclose⟩
  | cons next items ih =>
    obtain ⟨hitem, hitems⟩ := List.forall_mem_cons.1 h
    obtain ⟨cs, hcs, hwritten⟩ := ih hitems
    refine ⟨layOne item ++ [] ++ ',' :: before ++ cs, ?_, .more hitem areBlank_nil hbefore hwritten⟩
    rw [hmore, List.append_assoc, hcs]
    simp

/-- Members are written one after the other, with the same blanks before each. -/
theorem exists_membersWritten (layOne : Text × Json → List Char)
    (layLater : List (Text × Json) → List Char) (hbefore : AreBlank before) (hclose : AreBlank close)
    (hend : layLater [] = close ++ ['\x7d'])
    (hmore : ∀ member members,
      layLater (member :: members) = ',' :: before ++ layOne member ++ layLater members)
    {member : Text × Json} {members : List (Text × Json)}
    (h : ∀ m ∈ member :: members, MemberWritten m (layOne m)) :
    ∃ cs, layOne member ++ layLater members = cs ++ ['\x7d'] ∧
      MembersWritten (member :: members) cs := by
  induction members generalizing member with
  | nil => exact ⟨_, by rw [hend, List.append_assoc], .last (h member List.mem_cons_self) hclose⟩
  | cons next members ih =>
    obtain ⟨hmember, hmembers⟩ := List.forall_mem_cons.1 h
    obtain ⟨cs, hcs, hwritten⟩ := ih hmembers
    refine ⟨layOne member ++ [] ++ ',' :: before ++ cs, ?_, .more hmember areBlank_nil hbefore hwritten⟩
    rw [hmore, List.append_assoc, hcs]
    simp

end Elements

theorem memberWritten_quote {after cs : List Char} (hafter : AreBlank after) {member : Text × Json}
    (h : Written member.2 cs) : MemberWritten member (quote member.1 ++ ':' :: (after ++ cs)) := by
  obtain ⟨ks, hquote, hkey⟩ := exists_written_quote member.1
  have hmember := MemberWritten.pair hkey areBlank_nil hafter h
  rw [hquote]
  simpa using hmember

theorem written_quote (text : Text) : Written (.string text) (quote text) := by
  obtain ⟨cs, hquote, hwritten⟩ := exists_written_quote text
  exact hquote ▸ .string hwritten

theorem written_literal {literal : String} (h : NumberWritten literal.toList) :
    Written (.number literal) literal.toList := by
  have hnumber := Written.number h
  rwa [String.ofList_toList] at hnumber

theorem areBlank_newline (depth : ℕ) : AreBlank (newline depth) := by
  intro c hc
  rcases List.mem_cons.1 hc with rfl | hc
  · rfl
  · rw [List.eq_of_mem_replicate hc]
    rfl

/-- The layout without blanks writes the value. -/
theorem written_compact {j : Json} (h : IsLegible j) : Written j (compact j) := by
  induction h with
  | null => exact .null
  | bool b =>
    cases b with
    | true => exact .true
    | false => exact .false
  | number h => exact written_literal h
  | string text => exact written_quote text
  | @array items _ ih =>
    cases items with
    | nil => exact .emptyArray areBlank_nil
    | cons item items =>
      obtain ⟨cs, hcs, hwritten⟩ := exists_itemsWritten compact compactItems areBlank_nil
        areBlank_nil rfl (fun _ _ => rfl) ih
      have h := Written.array areBlank_nil hwritten
      rwa [List.append_assoc, ← hcs] at h
  | @object members _ ih =>
    cases members with
    | nil => exact .emptyObject areBlank_nil
    | cons member members =>
      obtain ⟨cs, hcs, hwritten⟩ := exists_membersWritten (fun m => quote m.1 ++ ':' :: compact m.2)
        compactMembers areBlank_nil areBlank_nil rfl (fun _ _ => rfl)
        fun m hm => memberWritten_quote areBlank_nil (ih m hm)
      have h := Written.object areBlank_nil hwritten
      rwa [List.append_assoc, ← hcs] at h

/-- The indented layout writes the value. -/
theorem written_pretty {j : Json} (h : IsLegible j) (depth : ℕ) : Written j (pretty depth j) := by
  induction h generalizing depth with
  | null => exact .null
  | bool b =>
    cases b with
    | true => exact .true
    | false => exact .false
  | number h => exact written_literal h
  | string text => exact written_quote text
  | @array items _ ih =>
    cases items with
    | nil => exact .emptyArray areBlank_nil
    | cons item items =>
      have hbefore := areBlank_newline (depth + 1)
      obtain ⟨cs, hcs, hwritten⟩ := exists_itemsWritten (pretty (depth + 1))
        (prettyItems depth) hbefore (areBlank_newline depth) rfl (fun _ _ => rfl)
        fun i hi => ih i hi (depth + 1)
      have h := Written.array hbefore hwritten
      rwa [List.append_assoc, ← hcs, ← List.append_assoc] at h
  | @object members _ ih =>
    cases members with
    | nil => exact .emptyObject areBlank_nil
    | cons member members =>
      have hbefore := areBlank_newline (depth + 1)
      have hcolon : AreBlank [' '] := by simp [AreBlank, isBlank]
      obtain ⟨cs, hcs, hwritten⟩ := exists_membersWritten
        (fun m => quote m.1 ++ ':' :: ' ' :: pretty (depth + 1) m.2) (prettyMembers depth) hbefore
        (areBlank_newline depth) rfl
        (fun m ms => congrArg (· ++ prettyMembers depth ms) (List.append_assoc ..))
        fun m hm => memberWritten_quote hcolon (ih m hm (depth + 1))
      have h := Written.object hbefore hwritten
      rwa [List.append_assoc, ← hcs, ← List.append_assoc, ← List.append_assoc] at h

/-! ### Documents -/

theorem documentWritten_of_written {j : Json} {cs after : List Char} (h : Written j cs)
    (hafter : AreBlank after) : DocumentWritten j (String.ofList (cs ++ after)) :=
  ⟨[], cs, after, String.toList_ofList, areBlank_nil, h, hafter⟩

/-- Blanks may stand after the indented layout, such as the end of the line. -/
theorem documentWritten_pretty {j : Json} (h : IsLegible j) (depth : ℕ) {after : List Char}
    (hafter : AreBlank after) : DocumentWritten j (String.ofList (j.pretty depth ++ after)) :=
  documentWritten_of_written (written_pretty h depth) hafter

theorem parse?_compact {j : Json} (h : IsLegible j) : parse? (String.ofList j.compact) = some j := by
  have hdocument := documentWritten_of_written (written_compact h) areBlank_nil
  rw [List.append_nil] at hdocument
  exact parse?_eq_some_iff.2 hdocument

theorem parse?_pretty {j : Json} (h : IsLegible j) (depth : ℕ) {after : List Char}
    (hafter : AreBlank after) : parse? (String.ofList (j.pretty depth ++ after)) = some j :=
  parse?_eq_some_iff.2 (documentWritten_pretty h depth hafter)

end PathGuard.Json
