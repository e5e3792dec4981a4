import Mathlib.Data.List.TakeWhile
import PathGuard.Proofs.Json.Scanning

/-!
# JSON texts

How a JSON value is written, as a grammar: blanks may stand around every value, key, colon and comma, and
nowhere else. Reading follows the grammar in both directions: a text that writes a value is read as that
value, and a text that is read as a value writes it.

## Main definitions

- `Json.Written`: how a value is written
- `Json.DocumentWritten`: a whole text that writes a value

## Main results

- `Json.readValue_of_written`: a value that is written is read to its end
- `Json.written_of_readValue`: what is read was written
- `Json.parse?_eq_some_iff`: reading a whole text
- `Json.exists_number_of_parse?_append`: nothing but blanks may follow a value
-/

namespace PathGuard.Json

/-- Nothing but blanks, or nothing at all. -/
def AreBlank (cs : List Char) : Prop :=
  ∀ c ∈ cs, isBlank c = true

mutual

/-- How a value is written, without blanks around it. -/
inductive Written : Json → List Char → Prop where
  | null : Written null "null".toList
  | true : Written (bool .true) "true".toList
  | false : Written (bool .false) "false".toList
  | number {cs : List Char} (h : NumberWritten cs) : Written (number (String.ofList cs)) cs
  | string {text : Text} {cs : List Char} (h : text.Written cs) :
      Written (string text) ('\x22' :: cs ++ ['\x22'])
  | emptyArray {bs : List Char} (hbs : AreBlank bs) : Written (array []) ('[' :: bs ++ [']'])
  | array {items : List Json} {bs cs : List Char} (hbs : AreBlank bs) (h : ItemsWritten items cs) :
      Written (array items) ('[' :: bs ++ cs ++ [']'])
  | emptyObject {bs : List Char} (hbs : AreBlank bs) :
      Written (object []) ('\x7b' :: bs ++ ['\x7d'])
  | object {members : List (Text × Json)} {bs cs : List Char} (hbs : AreBlank bs)
      (h : MembersWritten members cs) : Written (object members) ('\x7b' :: bs ++ cs ++ ['\x7d'])

/-- How the items of an array are written, at least one, with the blanks after the last. -/
inductive ItemsWritten : List Json → List Char → Prop where
  | last {item : Json} {cs bs : List Char} (h : Written item cs) (hbs : AreBlank bs) :
      ItemsWritten [item] (cs ++ bs)
  | more {item : Json} {items : List Json} {cs before after ds : List Char} (h : Written item cs)
      (hbefore : AreBlank before) (hafter : AreBlank after) (hitems : ItemsWritten items ds) :
      ItemsWritten (item :: items) (cs ++ before ++ ',' :: after ++ ds)

/-- How a member of an object is written, without blanks around it. -/
inductive MemberWritten : Text × Json → List Char → Prop where
  | pair {key : Text} {value : Json} {ks before after cs : List Char} (hkey : key.Written ks)
      (hbefore : AreBlank before) (hafter : AreBlank after) (h : Written value cs) :
      MemberWritten (key, value) ('\x22' :: ks ++ '\x22' :: before ++ ':' :: after ++ cs)

/-- How the members of an object are written, at least one, with the blanks after the last. -/
inductive MembersWritten : List (Text × Json) → List Char → Prop where
  | last {member : Text × Json} {cs bs : List Char} (h : MemberWritten member cs)
      (hbs : AreBlank bs) : MembersWritten [member] (cs ++ bs)
  | more {member : Text × Json} {members : List (Text × Json)} {cs before after ds : List Char}
      (h : MemberWritten member cs) (hbefore : AreBlank before) (hafter : AreBlank after)
      (hmembers : MembersWritten members ds) :
      MembersWritten (member :: members) (cs ++ before ++ ',' :: after ++ ds)

end

/-- A whole text that writes a value, with blanks around it. -/
def DocumentWritten (j : Json) (text : String) : Prop :=
  ∃ before cs after, text.toList = before ++ cs ++ after ∧ AreBlank before ∧ Written j cs ∧
    AreBlank after

/-! ### Blanks and first characters -/

theorem skipBlanks_append {bs : List Char} (hbs : AreBlank bs) (cs : List Char) :
    skipBlanks (bs ++ cs) = skipBlanks cs :=
  List.dropWhile_append_of_pos hbs

theorem skipBlanks_cons {c : Char} (hc : isBlank c = false) (cs : List Char) :
    skipBlanks (c :: cs) = c :: cs :=
  List.dropWhile_cons_of_neg (by simp [hc])

/-- Characters that a value or a member begins with. -/
def Opens (c : Char) : Prop :=
  isBlank c = false ∧ c ≠ ']' ∧ c ≠ '\x7d'

theorem NumberWritten.exists_cons {cs : List Char} (h : NumberWritten cs) :
    ∃ c rest, cs = c :: rest ∧ (c = '-' ∨ c.isDigit = true) := by
  obtain @⟨sign, whole, fraction, exponent, hsign, hwhole, hfraction, hexponent⟩ := h
  rcases hsign with rfl | rfl
  · cases hwhole with
    | zero => exact ⟨'0', _, rfl, .inr rfl⟩
    | digits h => exact ⟨_, _, rfl, .inr (h.2 _ List.mem_cons_self)⟩
  · exact ⟨'-', _, rfl, .inl rfl⟩

theorem opens_of_number {c : Char} (h : c = '-' ∨ c.isDigit = true) : Opens c := by
  have hne : ∀ d : Char, d ≠ '-' → d.isDigit = false → c ≠ d := by
    rintro d hminus hdigit rfl
    rcases h with h | h
    · exact hminus h
    · rw [hdigit] at h
      cases h
  have hblank : isBlank c = false := by
    simp only [isBlank, Bool.or_eq_false_iff, beq_eq_false_iff_ne]
    refine ⟨⟨⟨?_, ?_⟩, ?_⟩, ?_⟩ <;> exact hne _ (by decide) (by decide)
  exact ⟨hblank, hne _ (by decide) (by decide), hne _ (by decide) (by decide)⟩

theorem notMem_of_number {c : Char} (h : c = '-' ∨ c.isDigit = true) :
    c ∉ ['n', 't', 'f', '\x22', '[', '\x7b'] := by
  intro hmem
  simp only [List.mem_cons, List.not_mem_nil, or_false] at hmem
  rcases hmem with rfl | rfl | rfl | rfl | rfl | rfl <;> revert h <;> decide

section Heads

variable {j : Json} {cs : List Char}

theorem Written.exists_cons (h : Written j cs) : ∃ c rest, cs = c :: rest ∧ Opens c := by
  cases h with
  | number h =>
    obtain ⟨c, rest, rfl, hc⟩ := h.exists_cons
    exact ⟨c, rest, rfl, opens_of_number hc⟩
  | _ => exact ⟨_, _, rfl, by decide, by decide, by decide⟩

theorem ItemsWritten.exists_cons {items : List Json} (h : ItemsWritten items cs) :
    ∃ c rest, cs = c :: rest ∧ Opens c := by
  cases h with
  | last h =>
    obtain ⟨c, rest, rfl, hc⟩ := h.exists_cons
    exact ⟨c, _, rfl, hc⟩
  | more h =>
    obtain ⟨c, rest, rfl, hc⟩ := h.exists_cons
    exact ⟨c, _, rfl, hc⟩

theorem MembersWritten.exists_cons {members : List (Text × Json)} (h : MembersWritten members cs) :
    ∃ c rest, cs = c :: rest ∧ Opens c := by
  cases h with
  | last h =>
    cases h with
    | pair => exact ⟨_, _, rfl, by decide, by decide, by decide⟩
  | more h =>
    cases h with
    | pair => exact ⟨_, _, rfl, by decide, by decide, by decide⟩

end Heads

/-! ### Steps of reading -/

/-- What comes after an element: the closing character, or a comma and more elements. -/
def readSeparated {α : Type} (close : Char) (more : List Char → Option (List α × List Char)) :
    α × List Char → Option (List α × List Char)
  | (x, mid) =>
    match skipBlanks mid with
    | [] => none
    | c :: rest =>
      if c = close then some ([x], rest)
      else if c = ',' then (more (skipBlanks rest)).map fun (xs, rest) => (x :: xs, rest)
      else none

/-- Reads one member of an object. -/
def readMember (fuel : ℕ) (cs : List Char) : Option ((Text × Json) × List Char) := do
  let '\x22' :: rest := cs | none
  let (pieces, rest) ← scanString rest
  let ':' :: rest := skipBlanks rest | none
  let (value, rest) ← readValue fuel (skipBlanks rest)
  return ((Text.ofPieces pieces, value), rest)

section Separated

variable {α : Type} {close : Char} {more : List Char → Option (List α × List Char)} {x : α}
  {xs : List α} {mid rest : List Char}

theorem readSeparated_close (h : skipBlanks mid = close :: rest) :
    readSeparated close more (x, mid) = some ([x], rest) := by
  simp [readSeparated, h]

theorem readSeparated_comma (hclose : close ≠ ',') (h : skipBlanks mid = ',' :: rest) :
    readSeparated close more (x, mid) =
      (more (skipBlanks rest)).map fun (xs, rest) => (x :: xs, rest) := by
  simp [readSeparated, h, hclose.symm]

theorem readSeparated_of_not (hclose : ∀ rest, skipBlanks mid ≠ close :: rest)
    (hcomma : ∀ rest, skipBlanks mid ≠ ',' :: rest) : readSeparated close more (x, mid) = none := by
  rw [readSeparated]
  cases hmid : skipBlanks mid with
  | nil => rfl
  | cons c rest =>
    have hc : c ≠ close := fun hc => hclose rest (hc ▸ hmid)
    have hc' : c ≠ ',' := fun hc => hcomma rest (hc ▸ hmid)
    simp [hc, hc']

theorem cases_of_readSeparated (h : readSeparated close more (x, mid) = some (xs, rest)) :
    (skipBlanks mid = close :: rest ∧ xs = [x]) ∨
      ∃ after later, skipBlanks mid = ',' :: after ∧ more (skipBlanks after) = some (later, rest) ∧
        xs = x :: later := by
  by_cases hclose : ∃ after, skipBlanks mid = close :: after
  · obtain ⟨after, hclose⟩ := hclose
    rw [readSeparated_close hclose] at h
    obtain ⟨rfl, rfl⟩ := Prod.mk.inj (Option.some.inj h)
    exact .inl ⟨hclose, rfl⟩
  · by_cases hcomma : ∃ after, skipBlanks mid = ',' :: after
    · obtain ⟨after, hcomma⟩ := hcomma
      have hne : close ≠ ',' := by
        rintro rfl
        exact hclose ⟨after, hcomma⟩
      rw [readSeparated_comma hne hcomma] at h
      obtain ⟨⟨later, rest'⟩, hlater, heq⟩ := Option.map_eq_some_iff.1 h
      obtain ⟨rfl, rfl⟩ := Prod.mk.inj heq
      exact .inr ⟨after, later, hcomma, hlater, rfl⟩
    · rw [readSeparated_of_not (fun rest h => hclose ⟨rest, h⟩) fun rest h => hcomma ⟨rest, h⟩] at h
      cases h

end Separated

section Steps

variable {fuel : ℕ} {c : Char} {cs rest : List Char}

theorem readValue_string (fuel : ℕ) (cs : List Char) :
    readValue (fuel + 1) ('\x22' :: cs) =
      (scanString cs).map fun (ps, rest) => (string (.ofPieces ps), rest) := by
  rw [readValue]
  cases scanString cs <;> rfl

theorem readValue_emptyArray (h : skipBlanks cs = ']' :: rest) :
    readValue (fuel + 1) ('[' :: cs) = some (array [], rest) := by
  rw [readValue, h]
  rfl

theorem readValue_array (h : ∀ rest, skipBlanks cs ≠ ']' :: rest) :
    readValue (fuel + 1) ('[' :: cs) =
      (readItems fuel (skipBlanks cs)).map fun (items, rest) => (array items, rest) := by
  rw [readValue]
  split
  · next heq => exact absurd heq (h _)
  · cases readItems fuel (skipBlanks cs) <;> rfl

theorem readValue_emptyObject (h : skipBlanks cs = '\x7d' :: rest) :
    readValue (fuel + 1) ('\x7b' :: cs) = some (object [], rest) := by
  rw [readValue, h]
  rfl

theorem readValue_object (h : ∀ rest, skipBlanks cs ≠ '\x7d' :: rest) :
    readValue (fuel + 1) ('\x7b' :: cs) =
      (readMembers fuel (skipBlanks cs)).map fun (members, rest) => (object members, rest) := by
  rw [readValue]
  split
  · next heq => exact absurd heq (h _)
  · cases readMembers fuel (skipBlanks cs) <;> rfl

/-- Whatever begins with none of the other values' first characters is read as a number. -/
theorem readValue_number (hc : c ∉ ['n', 't', 'f', '\x22', '[', '\x7b']) (cs : List Char) :
    readValue (fuel + 1) (c :: cs) =
      (scanNumber (c :: cs)).map fun (literal, rest) => (number (String.ofList literal), rest) := by
  simp only [List.mem_cons, List.not_mem_nil, or_false, not_or] at hc
  obtain ⟨hn, ht, hf, hquote, hbracket, hbrace⟩ := hc
  rw [readValue.eq_9 _ _ _ hn ht hf hquote hbracket hbrace]
  cases scanNumber (c :: cs) <;> rfl

theorem readItems_succ (fuel : ℕ) (cs : List Char) :
    readItems (fuel + 1) cs = (readValue fuel cs).bind (readSeparated ']' (readItems fuel)) := by
  rw [readItems]
  rcases readValue fuel cs with _ | ⟨item, mid⟩
  · rfl
  · simp only [Option.bind_eq_bind, Option.bind_some]
    split
    · next h => rw [readSeparated_close h, Option.pure_def]
    · next rest h =>
      rw [readSeparated_comma (by decide) h]
      cases readItems fuel (skipBlanks rest) <;> rfl
    · next hclose hcomma => rw [readSeparated_of_not hclose hcomma]

theorem readMembers_succ (fuel : ℕ) (cs : List Char) :
    readMembers (fuel + 1) cs =
      (readMember fuel cs).bind (readSeparated '\x7d' (readMembers fuel)) := by
  by_cases hquote : ∃ rest, cs = '\x22' :: rest
  · obtain ⟨cs, rfl⟩ := hquote
    rw [readMembers, readMember]
    rcases scanString cs with _ | ⟨ps, afterKey⟩
    · rfl
    simp only [Option.bind_eq_bind, Option.bind_some]
    by_cases hcolon : ∃ rest, skipBlanks afterKey = ':' :: rest
    · obtain ⟨rest, hcolon⟩ := hcolon
      rw [hcolon]
      rcases hvalue : readValue fuel (skipBlanks rest) with _ | ⟨value, mid⟩
      · simp [hvalue]
      · simp only [hvalue, Option.bind_some, Option.pure_def]
        split
        · next h => rw [readSeparated_close h]
        · next rest h =>
          rw [readSeparated_comma (by decide) h]
          cases readMembers fuel (skipBlanks rest) <;> rfl
        · next hclose hcomma => rw [readSeparated_of_not hclose hcomma]
    · -- both sides end at the missing colon
      repeat' split
      all_goals first
        | exact absurd ⟨_, by assumption⟩ hcolon
        | rfl
  · rw [readMembers.eq_3 _ _ fun rest h => hquote ⟨rest, h⟩, readMember]
    · rfl
    · exact fun rest h => hquote ⟨rest, h⟩

theorem eq_append_of_scanWord {word : List Char} (h : scanWord word cs = some rest) :
    cs = word ++ rest := by
  induction word generalizing cs with
  | nil => exact Option.some.inj h
  | cons c word ih =>
    cases cs with
    | nil => cases h
    | cons d cs =>
      rw [scanWord] at h
      split at h
      · next hcd => rw [hcd, List.cons_append, ih h]
      · cases h

/-- What is read as the value that a word writes is that word. -/
theorem of_scanWord {α : Type} {word : List Char} {a b : α}
    (h : (scanWord word cs).map (a, ·) = some (b, rest)) : b = a ∧ cs = word ++ rest := by
  obtain ⟨more, hword, heq⟩ := Option.map_eq_some_iff.1 h
  obtain ⟨rfl, rfl⟩ := Prod.mk.inj heq
  exact ⟨rfl, eq_append_of_scanWord hword⟩

end Steps

/-! ### What is written is read -/

theorem ends_of_isBlank {c : Char} (hc : isBlank c = true) :
    c.isDigit = false ∧ c ≠ '.' ∧ c ≠ 'e' ∧ c ≠ 'E' := by
  simp only [isBlank, Bool.or_eq_true, beq_iff_eq] at hc
  rcases hc with ((rfl | rfl) | rfl) | rfl <;> decide

theorem AreBlank.endsNumber {bs : List Char} (hbs : AreBlank bs) : EndsNumber bs :=
  fun c hc => ends_of_isBlank (hbs c (List.mem_of_head? hc))

theorem endsNumber_of_blanks {bs : List Char} (hbs : AreBlank bs) {c : Char}
    (hc : c.isDigit = false ∧ c ≠ '.' ∧ c ≠ 'e' ∧ c ≠ 'E') (rest : List Char) :
    EndsNumber (bs ++ c :: rest) := by
  intro d hd
  cases bs with
  | nil =>
    obtain rfl := Option.some.inj hd
    exact hc
  | cons b bs =>
    obtain rfl := Option.some.inj hd
    exact ends_of_isBlank (hbs b List.mem_cons_self)

theorem skipBlanks_written {bs cs : List Char} (hbs : AreBlank bs)
    (h : ∃ c rest, cs = c :: rest ∧ Opens c) (rest : List Char) :
    skipBlanks (bs ++ (cs ++ rest)) = cs ++ rest := by
  obtain ⟨c, more, rfl, hc⟩ := h
  rw [skipBlanks_append hbs]
  exact skipBlanks_cons hc.1 _

/-- Fuel for what has a first character is not spent. -/
theorem exists_succ_of_length {cs : List Char} (h : ∃ c rest, cs = c :: rest ∧ Opens c) {fuel : ℕ}
    (hfuel : 2 * cs.length ≤ fuel + 1) : ∃ n, fuel = n + 1 := by
  obtain ⟨c, rest, rfl, -⟩ := h
  rw [List.length_cons] at hfuel
  exact ⟨fuel - 1, by omega⟩

mutual

/-- A value that is written is read to its end. There have to be two units of fuel for each of its
    characters but the last, and a number must not go on. -/
theorem readValue_of_written {j : Json} {cs : List Char} (h : Written j cs) {fuel : ℕ}
    (hfuel : 2 * cs.length ≤ fuel + 1) {rest : List Char}
    (hrest : (∃ literal, j = number literal) → EndsNumber rest) :
    readValue fuel (cs ++ rest) = some (j, rest) := by
  obtain ⟨n, rfl⟩ := exists_succ_of_length h.exists_cons hfuel
  cases h with
  | null => rfl
  | true => rfl
  | false => rfl
  | number h =>
    obtain ⟨d, digits, rfl, hd⟩ := h.exists_cons
    rw [List.cons_append, readValue_number (notMem_of_number hd), ← List.cons_append,
      scanNumber_of_written h (hrest ⟨_, rfl⟩)]
    rfl
  | string h =>
    obtain ⟨ps, hscan, rfl⟩ := h.exists_scanString rest
    simp only [List.cons_append, List.append_assoc, List.nil_append]
    rw [readValue_string, hscan]
    rfl
  | emptyArray hbs =>
    simp only [List.cons_append, List.append_assoc, List.nil_append]
    exact readValue_emptyArray (by rw [skipBlanks_append hbs, skipBlanks_cons rfl])
  | @array items bs ds hbs h =>
    simp only [List.length_cons, List.length_append, List.length_nil] at hfuel
    simp only [List.cons_append, List.append_assoc, List.nil_append]
    have hskip := skipBlanks_written hbs h.exists_cons (']' :: rest)
    have hclose : ∀ after, ds ++ ']' :: rest ≠ ']' :: after := by
      obtain ⟨d, later, rfl, hd⟩ := h.exists_cons
      exact fun after heq => hd.2.1 (List.cons.inj heq).1
    rw [← hskip] at hclose
    rw [readValue_array hclose, hskip, readItems_of_written h (by omega) rest]
    rfl
  | emptyObject hbs =>
    simp only [List.cons_append, List.append_assoc, List.nil_append]
    exact readValue_emptyObject (by rw [skipBlanks_append hbs, skipBlanks_cons rfl])
  | @object members bs ds hbs h =>
    simp only [List.length_cons, List.length_append, List.length_nil] at hfuel
    simp only [List.cons_append, List.append_assoc, List.nil_append]
    have hskip := skipBlanks_written hbs h.exists_cons ('\x7d' :: rest)
    have hclose : ∀ after, ds ++ '\x7d' :: rest ≠ '\x7d' :: after := by
      obtain ⟨d, later, rfl, hd⟩ := h.exists_cons
      exact fun after heq => hd.2.2 (List.cons.inj heq).1
    rw [← hskip] at hclose
    rw [readValue_object hclose, hskip, readMembers_of_written h (by omega) rest]
    rfl

theorem readItems_of_written {items : List Json} {cs : List Char} (h : ItemsWritten items cs) {fuel : ℕ}
    (hfuel : 2 * cs.length ≤ fuel) (rest : List Char) :
    readItems fuel (cs ++ ']' :: rest) = some (items, rest) := by
  obtain ⟨n, rfl⟩ := exists_succ_of_length h.exists_cons (Nat.le_succ_of_le hfuel)
  cases h with
  | last h hbs =>
    rw [List.length_append] at hfuel
    rw [List.append_assoc, readItems_succ, readValue_of_written h (by omega) fun _ =>
      endsNumber_of_blanks hbs (by decide) rest, Option.bind_some]
    exact readSeparated_close (by rw [skipBlanks_append hbs, skipBlanks_cons rfl])
  | more h hbefore hafter hitems =>
    simp only [List.length_cons, List.length_append] at hfuel
    simp only [List.cons_append, List.append_assoc]
    rw [readItems_succ, readValue_of_written h (by omega) fun _ =>
      endsNumber_of_blanks hbefore (by decide) _, Option.bind_some,
      readSeparated_comma (by decide) (by rw [skipBlanks_append hbefore, skipBlanks_cons rfl]),
      skipBlanks_written hafter hitems.exists_cons, readItems_of_written hitems (by omega) rest]
    rfl

theorem readMember_of_written {member : Text × Json} {cs : List Char} (h : MemberWritten member cs)
    {fuel : ℕ} (hfuel : 2 * cs.length ≤ fuel + 1) {rest : List Char} (hrest : EndsNumber rest) :
    readMember fuel (cs ++ rest) = some (member, rest) := by
  obtain @⟨key, value, ks, before, after, ds, hkey, hbefore, hafter, h⟩ := h
  simp only [List.length_cons, List.length_append] at hfuel
  simp only [List.cons_append, List.append_assoc]
  obtain ⟨ps, hscan, rfl⟩ := hkey.exists_scanString (before ++ ':' :: (after ++ (ds ++ rest)))
  rw [readMember, hscan]
  simp only [Option.bind_eq_bind, Option.bind_some]
  rw [skipBlanks_append hbefore, skipBlanks_cons rfl]
  simp only
  rw [skipBlanks_written hafter h.exists_cons, readValue_of_written h (by omega) fun _ => hrest]
  rfl

theorem readMembers_of_written {members : List (Text × Json)} {cs : List Char}
    (h : MembersWritten members cs) {fuel : ℕ} (hfuel : 2 * cs.length ≤ fuel) (rest : List Char) :
    readMembers fuel (cs ++ '\x7d' :: rest) = some (members, rest) := by
  obtain ⟨n, rfl⟩ := exists_succ_of_length h.exists_cons (Nat.le_succ_of_le hfuel)
  cases h with
  | last h hbs =>
    rw [List.length_append] at hfuel
    rw [List.append_assoc, readMembers_succ, readMember_of_written h (by omega)
      (endsNumber_of_blanks hbs (by decide) rest), Option.bind_some]
    exact readSeparated_close (by rw [skipBlanks_append hbs, skipBlanks_cons rfl])
  | more h hbefore hafter hmembers =>
    simp only [List.length_cons, List.length_append] at hfuel
    simp only [List.cons_append, List.append_assoc]
    rw [readMembers_succ, readMember_of_written h (by omega)
      (endsNumber_of_blanks hbefore (by decide) _), Option.bind_some,
      readSeparated_comma (by decide) (by rw [skipBlanks_append hbefore, skipBlanks_cons rfl]),
      skipBlanks_written hafter hmembers.exists_cons, readMembers_of_written hmembers (by omega) rest]
    rfl

end

/-! ### What is read was written -/

theorem exists_blanks (cs : List Char) : ∃ bs, AreBlank bs ∧ cs = bs ++ skipBlanks cs :=
  ⟨cs.takeWhile isBlank, List.all_eq_true.1 List.all_takeWhile,
    List.takeWhile_append_dropWhile.symm⟩

/-- What is read as a member was written as one, if that holds of what is read as its value. -/
theorem written_of_readMember {fuel : ℕ} {cs rest : List Char} {member : Text × Json}
    (hvalue : ∀ {cs j}, readValue fuel cs = some (j, rest) → ∃ w, cs = w ++ rest ∧ Written j w)
    (h : readMember fuel cs = some (member, rest)) :
    ∃ w, cs = w ++ rest ∧ MemberWritten member w := by
  by_cases hquote : ∃ more, cs = '\x22' :: more
  · obtain ⟨cs, rfl⟩ := hquote
    rw [readMember, Option.bind_eq_bind, Option.bind_eq_some_iff] at h
    obtain ⟨⟨ps, afterKey⟩, hscan, h⟩ := h
    obtain ⟨parts, hparts, rfl⟩ := stringWritten_of_scanString hscan
    obtain ⟨before, hbefore, hkey⟩ := exists_blanks afterKey
    by_cases hcolon : ∃ more, skipBlanks afterKey = ':' :: more
    · obtain ⟨afterColon, hcolon⟩ := hcolon
      obtain ⟨after, hafter, hcs⟩ := exists_blanks afterColon
      simp only [hcolon, Option.bind_eq_bind, Option.bind_eq_some_iff] at h
      obtain ⟨⟨value, later⟩, hread, heq⟩ := h
      obtain ⟨rfl, rfl⟩ := Prod.mk.inj (Option.some.inj heq)
      obtain ⟨w, hw, hwritten⟩ := hvalue hread
      rw [hkey, hcolon, hcs, hw]
      exact ⟨_, by simp, .pair (Text.written_ofPieces hparts) hbefore hafter hwritten⟩
    · dsimp only at h
      split at h
      · next more hmore => exact absurd ⟨more, hmore⟩ hcolon
      · cases h
  · rw [readMember] at h
    · cases h
    · exact fun more hmore => hquote ⟨more, hmore⟩

mutual

/-- What is read as a value was written as one. -/
theorem written_of_readValue {fuel : ℕ} {cs rest : List Char} {j : Json}
    (h : readValue fuel cs = some (j, rest)) : ∃ w, cs = w ++ rest ∧ Written j w := by
  cases fuel with
  | zero => cases h
  | succ fuel =>
    cases cs with
    | nil => cases h
    | cons c cs =>
      by_cases hc : c ∈ ['n', 't', 'f', '\x22', '[', '\x7b']
      · simp only [List.mem_cons, List.not_mem_nil, or_false] at hc
        rcases hc with rfl | rfl | rfl | rfl | rfl | rfl
        · obtain ⟨rfl, rfl⟩ := of_scanWord h
          exact ⟨_, rfl, .null⟩
        · obtain ⟨rfl, rfl⟩ := of_scanWord h
          exact ⟨_, rfl, .true⟩
        · obtain ⟨rfl, rfl⟩ := of_scanWord h
          exact ⟨_, rfl, .false⟩
        · rw [readValue_string] at h
          obtain ⟨⟨ps, more⟩, hscan, heq⟩ := Option.map_eq_some_iff.1 h
          obtain ⟨rfl, rfl⟩ := Prod.mk.inj heq
          obtain ⟨parts, hparts, rfl⟩ := stringWritten_of_scanString hscan
          exact ⟨_, by simp, .string (Text.written_ofPieces hparts)⟩
        · obtain ⟨bs, hbs, hcs⟩ := exists_blanks cs
          by_cases hclose : ∃ more, skipBlanks cs = ']' :: more
          · obtain ⟨more, hclose⟩ := hclose
            rw [readValue_emptyArray hclose] at h
            obtain ⟨rfl, rfl⟩ := Prod.mk.inj (Option.some.inj h)
            rw [hcs, hclose]
            exact ⟨_, by simp, .emptyArray hbs⟩
          · rw [readValue_array fun more hmore => hclose ⟨more, hmore⟩] at h
            obtain ⟨⟨items, more⟩, hitems, heq⟩ := Option.map_eq_some_iff.1 h
            obtain ⟨rfl, rfl⟩ := Prod.mk.inj heq
            obtain ⟨w, hw, hwritten⟩ := written_of_readItems hitems
            rw [hcs, hw]
            exact ⟨_, by simp, .array hbs hwritten⟩
        · obtain ⟨bs, hbs, hcs⟩ := exists_blanks cs
          by_cases hclose : ∃ more, skipBlanks cs = '\x7d' :: more
          · obtain ⟨more, hclose⟩ := hclose
            rw [readValue_emptyObject hclose] at h
            obtain ⟨rfl, rfl⟩ := Prod.mk.inj (Option.some.inj h)
            rw [hcs, hclose]
            exact ⟨_, by simp, .emptyObject hbs⟩
          · rw [readValue_object fun more hmore => hclose ⟨more, hmore⟩] at h
            obtain ⟨⟨members, more⟩, hmembers, heq⟩ := Option.map_eq_some_iff.1 h
            obtain ⟨rfl, rfl⟩ := Prod.mk.inj heq
            obtain ⟨w, hw, hwritten⟩ := written_of_readMembers hmembers
            rw [hcs, hw]
            exact ⟨_, by simp, .object hbs hwritten⟩
      · rw [readValue_number hc] at h
        obtain ⟨⟨literal, more⟩, hscan, heq⟩ := Option.map_eq_some_iff.1 h
        obtain ⟨rfl, rfl⟩ := Prod.mk.inj heq
        obtain ⟨hwritten, hcs⟩ := numberWritten_of_scanNumber hscan
        exact ⟨literal, hcs, .number hwritten⟩

theorem written_of_readItems {fuel : ℕ} {cs rest : List Char} {items : List Json}
    (h : readItems fuel cs = some (items, rest)) :
    ∃ w, cs = w ++ ']' :: rest ∧ ItemsWritten items w := by
  cases fuel with
  | zero => cases h
  | succ fuel =>
    rw [readItems_succ, Option.bind_eq_some_iff] at h
    obtain ⟨⟨item, mid⟩, hitem, h⟩ := h
    obtain ⟨w, rfl, hw⟩ := written_of_readValue hitem
    obtain ⟨bs, hbs, hmid⟩ := exists_blanks mid
    rcases cases_of_readSeparated h with ⟨hclose, rfl⟩ | ⟨after, later, hcomma, hlater, rfl⟩
    · rw [hmid, hclose]
      exact ⟨_, by simp, .last hw hbs⟩
    · obtain ⟨bs', hbs', hafter⟩ := exists_blanks after
      obtain ⟨w', hw', hitems⟩ := written_of_readItems hlater
      rw [hmid, hcomma, hafter, hw']
      exact ⟨_, by simp, .more hw hbs hbs' hitems⟩

theorem written_of_readMembers {fuel : ℕ} {cs rest : List Char} {members : List (Text × Json)}
    (h : readMembers fuel cs = some (members, rest)) :
    ∃ w, cs = w ++ '\x7d' :: rest ∧ MembersWritten members w := by
  cases fuel with
  | zero => cases h
  | succ fuel =>
    rw [readMembers_succ, Option.bind_eq_some_iff] at h
    obtain ⟨⟨member, mid⟩, hmember, h⟩ := h
    obtain ⟨w, rfl, hw⟩ := written_of_readMember written_of_readValue hmember
    obtain ⟨bs, hbs, hmid⟩ := exists_blanks mid
    rcases cases_of_readSeparated h with ⟨hclose, rfl⟩ | ⟨after, later, hcomma, hlater, rfl⟩
    · rw [hmid, hclose]
      exact ⟨_, by simp, .last hw hbs⟩
    · obtain ⟨bs', hbs', hafter⟩ := exists_blanks after
      obtain ⟨w', hw', hmembers⟩ := written_of_readMembers hlater
      rw [hmid, hcomma, hafter, hw']
      exact ⟨_, by simp, .more hw hbs hbs' hmembers⟩

end

/-! ### Whole texts -/

theorem AreBlank.skipBlanks_eq {bs : List Char} (hbs : AreBlank bs) : skipBlanks bs = [] :=
  List.dropWhile_eq_nil_iff.2 hbs

theorem parse?_eq_some_iff_readValue {text : String} {j : Json} :
    parse? text = some j ↔ ∃ rest,
      readValue (2 * text.toList.length + 2) (skipBlanks text.toList) = some (j, rest) ∧
        skipBlanks rest = [] := by
  simp only [parse?, Option.bind_eq_bind, Option.bind_eq_some_iff, Prod.exists, Option.ite_none_right_eq_some,
    List.isEmpty_iff, Option.some.injEq]
  constructor
  · rintro ⟨j', rest, hread, hrest, rfl⟩
    exact ⟨rest, hread, hrest⟩
  · rintro ⟨rest, hread, hrest⟩
    exact ⟨j, rest, hread, hrest, rfl⟩

/-- The value of a text is the one that it writes. -/
theorem parse?_eq_some_iff {text : String} {j : Json} :
    parse? text = some j ↔ DocumentWritten j text := by
  rw [parse?_eq_some_iff_readValue]
  constructor
  · rintro ⟨rest, hread, hrest⟩
    obtain ⟨before, hbefore, htext⟩ := exists_blanks text.toList
    obtain ⟨w, hw, hwritten⟩ := written_of_readValue hread
    refine ⟨before, w, rest, ?_, hbefore, hwritten, List.dropWhile_eq_nil_iff.1 hrest⟩
    rw [List.append_assoc, ← hw]
    exact htext
  · rintro ⟨before, cs, after, htext, hbefore, hwritten, hafter⟩
    refine ⟨after, ?_, hafter.skipBlanks_eq⟩
    rw [htext, List.append_assoc, skipBlanks_written hbefore hwritten.exists_cons]
    refine readValue_of_written hwritten ?_ fun _ => hafter.endsNumber
    simp only [List.length_append]
    omega

/-- Text after a value is no part of a document: at most a number goes on in it. -/
theorem exists_number_of_parse?_append {text rest : String} {j j' : Json} (h : DocumentWritten j text)
    (hrest : ∃ c ∈ rest.toList, isBlank c = false) (hparse : parse? (text ++ rest) = some j') :
    ∃ literal, j' = number literal := by
  obtain ⟨before, cs, after, htext, hbefore, hwritten, -⟩ := h
  obtain ⟨left, hread, hleft⟩ := parse?_eq_some_iff_readValue.1 hparse
  have hskip : skipBlanks (text ++ rest).toList = cs ++ (after ++ rest.toList) := by
    rw [String.toList_append, htext, List.append_assoc, List.append_assoc,
      skipBlanks_written hbefore hwritten.exists_cons]
  rw [hskip] at hread
  by_cases hnumber : ∃ literal, j = number literal
  · obtain ⟨literal, rfl⟩ := hnumber
    cases hwritten with
    | number h =>
      obtain ⟨c, more, rfl, hc⟩ := h.exists_cons
      rw [List.cons_append, readValue_number (notMem_of_number hc)] at hread
      obtain ⟨⟨literal', later⟩, -, heq⟩ := Option.map_eq_some_iff.1 hread
      exact ⟨_, (Prod.mk.inj heq).1.symm⟩
  · -- any other value ends where it is written, so the rest of the text is left
    have hfuel : 2 * cs.length ≤ 2 * (text ++ rest).toList.length + 2 + 1 := by
      simp only [String.toList_append, htext, List.length_append]
      omega
    rw [readValue_of_written hwritten hfuel fun h => absurd h hnumber] at hread
    obtain ⟨-, rfl⟩ := Prod.mk.inj (Option.some.inj hread)
    obtain ⟨c, hc, hnot⟩ := hrest
    have hblank := List.dropWhile_eq_nil_iff.1 hleft c (List.mem_append_right after hc)
    rw [hnot] at hblank
    cases hblank

end PathGuard.Json
