import Mathlib.Computability.Language
import PathGuard.Glob.Marks

/-!
# Languages of tokens

Each token has a language, the set of byte texts that it matches, and a sequence of tokens has the
product of theirs. Marks record a language when they stand at just those prefixes of the subject that
belong to it. Every way of moving marks on multiplies or adds languages, so the marks at the end of a
pattern record the language of the pattern.

## Main definitions

- `Token.language`, `Token.seqLanguage`, `Token.anyLanguage`: what tokens match
- `Marks.Records`: marks that stand at the prefixes of a language

## Main results

- `Token.records_reach`: a token multiplies what marks record by its language
- `Token.accepts_iff_mem_language`: matching decides the language of a pattern
-/

namespace PathGuard.Glob

/-- The texts of one byte of a kind. -/
def oneByte (kind : UInt8 → Bool) : Language UInt8 :=
  {bs | ∃ b, kind b = true ∧ bs = [b]}

def bytesOf (kind : UInt8 → Bool) : Language UInt8 :=
  {bs | ∀ b ∈ bs, kind b = true}

namespace Token

mutual

/-- The texts that a token matches. -/
def language : Token → Language UInt8
  | .literal c => {String.utf8EncodeChar c}
  | .any => oneByte (· != slash)
  | .star => bytesOf (· != slash)
  | .leading => 1 + bytesOf (fun _ => true) * oneByte (· == slash)
  | .trailing => oneByte (· == slash) * bytesOf fun _ => true
  | .spanning =>
    oneByte (· == slash) + oneByte (· == slash) * (bytesOf (fun _ => true) * oneByte (· == slash))
  | .cls k => oneByte k.holds
  | .group branches => if allVoid branches then 1 else anyLanguage branches

/-- The texts that a sequence of tokens matches. -/
def seqLanguage : List Token → Language UInt8
  | [] => 1
  | t :: ts => language t * seqLanguage ts

/-- The texts that some sequence, of those that add something, matches. -/
def anyLanguage : List (List Token) → Language UInt8
  | [] => 0
  | ts :: branches =>
    if isVoidSeq ts then anyLanguage branches else seqLanguage ts + anyLanguage branches

end

theorem seqLanguage_append (ts us : List Token) :
    seqLanguage (ts ++ us) = seqLanguage ts * seqLanguage us := by
  induction ts with
  | nil => simp [seqLanguage]
  | cons t ts ih => rw [List.cons_append, seqLanguage, seqLanguage, ih, mul_assoc]

end Token

namespace Marks

/-- Marks that stand at the prefixes of the subject which belong to a language, and at no other. -/
structure Records (m : Marks) (subject : List UInt8) (l : Language UInt8) : Prop where
  length_eq : m.length = subject.length + 1
  getElem_iff : ∀ before, before <+: subject → (m[before.length]? = some true ↔ before ∈ l)

variable {m n : Marks} {subject : List UInt8} {l k : Language UInt8}

theorem records_start (subject : List UInt8) : (start subject).Records subject 1 := by
  refine ⟨length_start subject, fun before hbefore => ?_⟩
  rw [Language.mem_one]
  cases before with
  | nil => simp [start]
  | cons b before =>
    have hlen := hbefore.length_le
    rw [List.length_cons] at hlen
    have hlt : before.length < subject.length := by omega
    simp [start, hlt]

theorem records_none (hm : m.length = subject.length + 1) :
    Records (m.map fun _ => false) subject 0 := by
  refine ⟨by simp [hm], fun before _ => ?_⟩
  rw [List.getElem?_map]
  simp

theorem Records.union (hm : m.Records subject l) (hn : n.Records subject k) :
    (m.union n).Records subject (l + k) := by
  refine ⟨by simp [Marks.union, hm.length_eq, hn.length_eq], fun before hbefore => ?_⟩
  have hlen := hbefore.length_le
  have hml : before.length < m.length := by rw [hm.length_eq]; omega
  have hnl : before.length < n.length := by rw [hn.length_eq]; omega
  have hmi := hm.getElem_iff before hbefore
  have hni := hn.getElem_iff before hbefore
  rw [List.getElem?_eq_getElem hml] at hmi
  rw [List.getElem?_eq_getElem hnl] at hni
  rw [Language.mem_add, ← hmi, ← hni, Marks.union, List.getElem?_zipWith,
    List.getElem?_eq_getElem hml, List.getElem?_eq_getElem hnl]
  simp

theorem Records.step (hm : m.Records subject l) (kind : UInt8 → Bool) :
    (m.step kind subject).Records subject (l * oneByte kind) := by
  refine ⟨length_step kind subject m hm.length_eq, fun before hbefore => ?_⟩
  rw [Language.mem_mul]
  rcases List.eq_nil_or_concat' before with rfl | ⟨before, b, rfl⟩
  · -- a step leaves no mark at the start, and every text of the product has a last byte
    simp only [Marks.step, List.length_nil, List.getElem?_cons_zero, Option.some.injEq,
      Bool.false_eq_true, false_iff]
    rintro ⟨a, -, c, ⟨b, -, rfl⟩, hcat⟩
    simp at hcat
  · have hinit : before <+: subject := (List.prefix_append before [b]).trans hbefore
    have hlast : subject[before.length]? = some b := by
      obtain ⟨rest, rfl⟩ := hbefore
      simp
    have hlt : before.length < m.length := by
      have hlen := hinit.length_le
      rw [hm.length_eq]
      omega
    have hmark := hm.getElem_iff before hinit
    rw [List.getElem?_eq_getElem hlt, Option.some.injEq] at hmark
    simp only [Marks.step, List.length_append, List.length_singleton, List.getElem?_cons_succ,
      List.getElem?_zipWith, List.getElem?_eq_getElem hlt, hlast, Option.some.injEq,
      Bool.and_eq_true, hmark]
    constructor
    · rintro ⟨hl, hb⟩
      exact ⟨before, hl, [b], ⟨b, hb, rfl⟩, rfl⟩
    · rintro ⟨a, ha, c, ⟨d, hd, rfl⟩, hcat⟩
      obtain ⟨rfl, hbd⟩ := List.append_inj' hcat rfl
      obtain rfl : d = b := by simpa using hbd
      exact ⟨ha, hd⟩

/-- The marks of a run stand where bytes of the kind lead from a mark, or from the byte before. -/
theorem getElem_runFrom (kind : UInt8 → Bool) (reached : Bool) (hm : m.length = subject.length + 1)
    {before : List UInt8} (hbefore : before <+: subject) :
    (runFrom kind reached subject m)[before.length]? = some true ↔
      (reached = true ∧ ∀ b ∈ before, kind b = true) ∨
        ∃ a c, a ++ c = before ∧ m[a.length]? = some true ∧ ∀ b ∈ c, kind b = true := by
  induction subject generalizing m reached before with
  | nil =>
    obtain rfl := List.prefix_nil.1 hbefore
    obtain ⟨mark, rfl⟩ := List.length_eq_one_iff.1 (by simpa using hm)
    simp [runFrom, or_comm]
  | cons s subject ih =>
    obtain ⟨mark, marks, rfl⟩ := List.exists_cons_of_length_eq_add_one hm
    cases before with
    | nil => simp [runFrom, or_comm]
    | cons b before =>
      obtain ⟨rfl, hrest⟩ := List.cons_prefix_cons.1 hbefore
      rw [runFrom, List.length_cons, List.getElem?_cons_succ,
        ih _ (by simpa using hm) hrest]
      -- the run over the rest begins at the first byte, or at a mark behind it
      constructor
      · rintro (⟨hreach, hall⟩ | ⟨a, c, rfl, hmark, hall⟩)
        · simp only [Bool.and_eq_true, Bool.or_eq_true] at hreach
          have hall' : ∀ x ∈ b :: before, kind x = true := by
            simpa using ⟨hreach.2, hall⟩
          rcases hreach.1 with hmark | hreached
          · exact .inr ⟨[], b :: before, rfl, by simp [hmark], hall'⟩
          · exact .inl ⟨hreached, hall'⟩
        · exact .inr ⟨b :: a, c, rfl, by simpa using hmark, hall⟩
      · rintro (⟨hreached, hall⟩ | ⟨a, c, hcat, hmark, hall⟩)
        · simp only [List.mem_cons, forall_eq_or_imp] at hall
          exact .inl ⟨by simp [hreached, hall.1], hall.2⟩
        · cases a with
          | nil =>
            obtain rfl : c = b :: before := by simpa using hcat
            simp only [List.mem_cons, forall_eq_or_imp] at hall
            have hmark : mark = true := by simpa using hmark
            exact .inl ⟨by simp [hmark, hall.1], hall.2⟩
          | cons a as =>
            obtain ⟨rfl, rfl⟩ : a = b ∧ as ++ c = before := by simpa using hcat
            exact .inr ⟨as, c, rfl, by simpa using hmark, hall⟩

theorem Records.run (hm : m.Records subject l) (kind : UInt8 → Bool) :
    (m.run kind subject).Records subject (l * bytesOf kind) := by
  refine ⟨length_runFrom kind false subject m hm.length_eq, fun before hbefore => ?_⟩
  rw [Language.mem_mul, Marks.run, getElem_runFrom kind false hm.length_eq hbefore]
  constructor
  · rintro (⟨h, -⟩ | ⟨a, c, rfl, hmark, hall⟩)
    · cases h
    · have ha : a <+: subject := (List.prefix_append a c).trans hbefore
      exact ⟨a, (hm.getElem_iff a ha).1 hmark, c, hall, rfl⟩
  · rintro ⟨a, hal, c, hall, rfl⟩
    have ha : a <+: subject := (List.prefix_append a c).trans hbefore
    exact .inr ⟨a, c, rfl, (hm.getElem_iff a ha).2 hal, hall⟩

theorem Records.foldl_step (hm : m.Records subject l) (bs : List UInt8) :
    (bs.foldl (fun m b => m.step (· == b) subject) m).Records subject (l * {bs}) := by
  induction bs generalizing m l with
  | nil =>
    have hone : ({[]} : Language UInt8) = 1 := rfl
    rw [hone, mul_one]
    exact hm
  | cons b bs ih =>
    have hcons : oneByte (· == b) * ({bs} : Language UInt8) = {b :: bs} := by
      ext x
      constructor
      · rintro ⟨-, ⟨c, hc, rfl⟩, y, rfl, rfl⟩
        simp only [beq_iff_eq] at hc
        rw [hc]
        rfl
      · rintro rfl
        exact ⟨[b], ⟨b, by simp, rfl⟩, bs, rfl, rfl⟩
    rw [← hcons, ← mul_assoc]
    exact ih (hm.step _)

theorem Records.atEnd_iff (hm : m.Records subject l) : m.atEnd = true ↔ subject ∈ l := by
  rw [← hm.getElem_iff subject List.prefix_rfl, atEnd, List.getLastD_eq_getLast?,
    List.getLast?_eq_getElem?, hm.length_eq]
  simp only [Nat.add_sub_cancel]
  cases h : m[subject.length]? with
  | none => simp
  | some b => simp

end Marks

namespace Token

variable {subject : List UInt8}

mutual

theorem records_reach {m : Marks} {l : Language UInt8} (hm : m.Records subject l) :
    ∀ t : Token, (reach subject t m).Records subject (l * language t)
  | .literal c => by
    rw [reach, language]
    exact hm.foldl_step _
  | .any => by
    rw [reach, language]
    exact hm.step _
  | .star => by
    rw [reach, language]
    exact hm.run _
  | .leading => by
    rw [reach, language, mul_add, mul_one, ← mul_assoc]
    exact hm.union ((hm.run _).step _)
  | .trailing => by
    rw [reach, language, ← mul_assoc]
    exact (hm.step _).run _
  | .spanning => by
    rw [reach, language, mul_add, ← mul_assoc, ← mul_assoc]
    exact (hm.step _).union (((hm.step _).run _).step _)
  | .cls k => by
    rw [reach, language]
    exact hm.step _
  | .group branches => by
    rw [reach, language]
    split
    · rw [mul_one]
      exact hm
    · exact records_reachAny hm branches

theorem records_reachSeq {m : Marks} {l : Language UInt8} (hm : m.Records subject l) :
    ∀ ts : List Token, (reachSeq subject ts m).Records subject (l * seqLanguage ts)
  | [] => by
    rw [reachSeq, seqLanguage, mul_one]
    exact hm
  | t :: ts => by
    rw [reachSeq, seqLanguage, ← mul_assoc]
    exact records_reachSeq (records_reach hm t) ts

theorem records_reachAny {m : Marks} {l : Language UInt8} (hm : m.Records subject l) :
    ∀ branches : List (List Token),
      (reachAny subject branches m).Records subject (l * anyLanguage branches)
  | [] => by
    rw [reachAny, anyLanguage, mul_zero]
    exact Marks.records_none hm.length_eq
  | ts :: branches => by
    rw [reachAny, anyLanguage]
    split
    · exact records_reachAny hm branches
    · rw [mul_add]
      exact (records_reachSeq hm ts).union (records_reachAny hm branches)

end

/-- A pattern matches the texts of its language; two leading stars on their own match every text. -/
theorem accepts_iff_mem_language (pattern : List Token) (subject : List UInt8) :
    accepts pattern subject = true ↔ pattern = [.leading] ∨ subject ∈ seqLanguage pattern := by
  have hend := (records_reachSeq (Marks.records_start subject) pattern).atEnd_iff
  rw [one_mul] at hend
  unfold accepts
  split
  · simp
  · next hne =>
    rw [hend, or_iff_right]
    exact fun h => hne h

end Token

end PathGuard.Glob
