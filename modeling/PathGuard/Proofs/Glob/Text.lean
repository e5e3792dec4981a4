import PathGuard.Glob.Basic
import PathGuard.Proofs.Glob.Language
import PathGuard.Proofs.Utf8

/-!
# Patterns that are text

A character that is no wildcard and opens nothing stands for itself, and so does any character after
a backslash. A pattern of such characters matches just the text it spells, and with two stars after a
final slash it matches what lies below that text.

## Main definitions

- `Glob.Compiles`, `Glob.Hits`: patterns that are read, and the subjects they then match
- `Glob.IsPlain`: characters that stand for themselves in a pattern
- `Glob.quote`: the pattern of a text

## Main results

- `Glob.hits_quote_iff`: a quoted text matches itself alone
- `Glob.hits_subtree_iff`: a plain text, a slash and two stars match what lies below the text
-/

namespace PathGuard.Glob

/-- A pattern that is read without a flaw. -/
def Compiles (pattern : String) : Prop :=
  ∃ g, compile pattern = .ok g

/-- A pattern that is read and matches a subject. -/
def Hits (pattern subject : String) : Prop :=
  ∃ g, compile pattern = .ok g ∧ g.accepts subject = true

theorem compile_eq (source : String) :
    compile source = (Token.ofString source).map fun tokens => ⟨source, tokens⟩ := by
  unfold compile
  cases Token.ofString source <;> rfl

theorem hits_iff_of_tokens {pattern subject : String} {tokens : List Token}
    (htokens : Token.ofString pattern = .ok tokens) :
    Hits pattern subject ↔
      tokens = [.leading] ∨ Utf8.encode subject ∈ Token.seqLanguage tokens := by
  have hcompile : compile pattern = .ok ⟨pattern, tokens⟩ := by
    rw [compile_eq, htokens]
    rfl
  rw [← Token.accepts_iff_mem_language]
  constructor
  · rintro ⟨g, hg, haccepts⟩
    obtain rfl : (⟨pattern, tokens⟩ : Glob) = g := by simpa [hcompile] using hg
    exact haccepts
  · exact fun h => ⟨_, hcompile, h⟩

theorem compiles_of_tokens {pattern : String} {tokens : List Token}
    (htokens : Token.ofString pattern = .ok tokens) : Compiles pattern :=
  ⟨⟨pattern, tokens⟩, by rw [compile_eq, htokens]; rfl⟩

theorem exists_tokens_of_compiles {pattern : String} (h : Compiles pattern) :
    ∃ tokens, Token.ofString pattern = .ok tokens := by
  obtain ⟨g, hg⟩ := h
  rw [compile_eq] at hg
  cases htokens : Token.ofString pattern with
  | error flaw => simp [htokens, Except.map] at hg
  | ok tokens => exact ⟨tokens, rfl⟩

theorem Hits.compiles {pattern subject : String} (h : Hits pattern subject) : Compiles pattern := by
  obtain ⟨g, hg, -⟩ := h
  exact ⟨g, hg⟩

theorem slash_mem_utf8EncodeChar_iff {c : Char} : slash ∈ String.utf8EncodeChar c ↔ c = '/' := by
  have hslash : slash ∈ String.utf8EncodeChar '/' := by decide
  constructor
  · exact fun h => Utf8.eq_of_mem_of_mem (by decide) h hslash
  · rintro rfl
    exact hslash

/-! ### Reading characters that stand for themselves -/

/-- A character that stands for itself in a pattern. -/
def IsPlain (c : Char) : Prop :=
  c ∉ ['?', '*', '[', '\\', '\x7b', '\x7d']

instance : DecidablePred IsPlain := fun c =>
  inferInstanceAs (Decidable (c ∉ ['?', '*', '[', '\\', '\x7b', '\x7d']))

/-- The lexeme of a character that stands for itself. A comma is a mark of groups as well. -/
def plainLexeme (c : Char) : Lexeme :=
  if c = ',' then .comma else .literal c false

/-- The pattern of a text: a backslash before each character. -/
def quoteChars (cs : List Char) : List Char :=
  cs.flatMap fun c => ['\\', c]

def quote (text : String) : String :=
  String.ofList (quoteChars text.toList)

namespace Lexeme

theorem begin_of_isPlain {c : Char} (hc : IsPlain c) : begin c = .inl (plainLexeme c) := by
  simp only [IsPlain, List.mem_cons, List.not_mem_nil, or_false, not_or] at hc
  unfold begin plainLexeme
  split
  all_goals simp_all

theorem scan_plain {cs : List Char} (rest : List Char) (hcs : ∀ c ∈ cs, IsPlain c) :
    scan .plain (cs ++ rest) = cs.map plainLexeme ++ scan .plain rest := by
  induction cs with
  | nil => rfl
  | cons c cs ih =>
    rw [List.cons_append, scan, begin_of_isPlain (hcs c List.mem_cons_self)]
    simp [ih fun d hd => hcs d (List.mem_cons_of_mem c hd)]

theorem scan_quoteChars (cs rest : List Char) :
    scan .plain (quoteChars cs ++ rest) =
      cs.map (fun c => .literal c true) ++ scan .plain rest := by
  induction cs with
  | nil => rfl
  | cons c cs ih =>
    have hquote : quoteChars (c :: cs) = '\\' :: c :: quoteChars cs := rfl
    rw [hquote, List.cons_append, List.cons_append, scan]
    simp [begin, scan, ih]

end Lexeme

namespace Token

def Draft.addText (d : Draft) (cs : List Char) : Draft :=
  cs.foldl (fun d c => (d.add (.literal c)).seen (some c)) d

theorem Draft.branch_addText (d : Draft) (cs : List Char) :
    (d.addText cs).branch = (cs.map Token.literal).reverse ++ d.branch := by
  induction cs generalizing d with
  | nil => rfl
  | cons c cs ih =>
    have hstep : d.addText (c :: cs) = ((d.add (.literal c)).seen (some c)).addText cs := rfl
    rw [hstep, ih]
    simp [Draft.add, Draft.seen]

theorem Draft.frames_addText (d : Draft) (cs : List Char) : (d.addText cs).frames = d.frames := by
  induction cs generalizing d with
  | nil => rfl
  | cons c cs ih => exact ih _

theorem Draft.last_addText_concat (d : Draft) (cs : List Char) (c : Char) :
    (d.addText (cs ++ [c])).last = some c := by
  simp [Draft.addText, Draft.seen]

theorem build_nil {d : Draft} (hd : d.frames = []) : build d [] = .ok d.branch.reverse := by
  simp [build, Draft.finish, hd]

theorem build_quoted (d : Draft) (cs : List Char) (rest : List Lexeme) :
    build d (cs.map (fun c => .literal c true) ++ rest) = build (d.addText cs) rest := by
  induction cs generalizing d with
  | nil => rfl
  | cons c cs ih =>
    rw [List.map_cons, List.cons_append, build]
    · exact ih _
    · simp

theorem build_plain {d : Draft} (hd : d.frames = []) (cs : List Char) (rest : List Lexeme) :
    build d (cs.map plainLexeme ++ rest) = build (d.addText cs) rest := by
  induction cs generalizing d with
  | nil => rfl
  | cons c cs ih =>
    have hread : d.read (plainLexeme c) (cs.map plainLexeme ++ rest) = .ok (d.add (.literal c)) := by
      by_cases hc : c = ','
      · simp [plainLexeme, hc, Draft.read, Draft.nextBranch, hd]
      · simp [plainLexeme, hc, Draft.read]
    have hlast : (plainLexeme c).lastChar = some c := by
      by_cases hc : c = ',' <;> simp [plainLexeme, hc, Lexeme.lastChar]
    rw [List.map_cons, List.cons_append, build, hread]
    · simp only [hlast]
      exact ih hd
    · intro later hstars
      by_cases hc : c = ',' <;> simp [plainLexeme, hc] at hstars

theorem ofString_quote (text : String) :
    ofString (quote text) = .ok (text.toList.map Token.literal) := by
  have hscan := Lexeme.scan_quoteChars text.toList []
  have hbuild := build_quoted .empty text.toList []
  simp only [List.append_nil, Lexeme.scan] at hscan hbuild
  rw [ofString, Lexeme.ofString, quote, String.toList_ofList, hscan, hbuild, build, Draft.finish,
    Draft.frames_addText, Draft.branch_addText]
  simp [Draft.empty]

/-- Two stars at the end, after plain text and a slash, take the place of the slash. -/
theorem ofString_subtree {cs : List Char} (hcs : ∀ c ∈ cs, IsPlain c) :
    ofString (String.ofList (cs ++ ['/', '*', '*'])) =
      .ok (cs.map Token.literal ++ [.trailing]) := by
  have hslash : ∀ c ∈ cs ++ ['/'], IsPlain c := by
    intro c hc
    rcases List.mem_append.1 hc with hc | hc
    · exact hcs c hc
    · rw [List.mem_singleton.1 hc]
      decide
  have hstars : Lexeme.scan .plain ['*', '*'] = [.doubleStar] := rfl
  have hscan := Lexeme.scan_plain ['*', '*'] hslash
  rw [List.append_assoc, List.singleton_append, hstars] at hscan
  rw [ofString, Lexeme.ofString, String.toList_ofList, hscan, build_plain rfl]
  -- the stars find a slash before them and nothing behind
  let d := Draft.addText .empty (cs ++ ['/'])
  have hbranch : d.branch = .literal '/' :: (cs.map Token.literal).reverse := by
    simp [d, Draft.branch_addText, Draft.empty]
  have hframes : d.frames = [] := Draft.frames_addText _ _
  have hlast : d.last = some '/' := Draft.last_addText_concat _ _ _
  have hrole : d.starRole .nothing = .trailing := by
    unfold Draft.starRole
    simp [Draft.atBoundary, hbranch, hlast]
  have hstars : d.addStars .trailing = { d with branch := .trailing :: (cs.map literal).reverse } := by
    simp [Draft.addStars, Draft.replace, hbranch]
  show build d [.doubleStar] = _
  simp [build, Draft.read, Follower.ofLexemes, hrole, hstars, Draft.finish, Draft.seen, hframes]

theorem seqLanguage_literals (cs : List Char) :
    seqLanguage (cs.map Token.literal) = {Utf8.encodeChars cs} := by
  induction cs with
  | nil => rfl
  | cons c cs ih =>
    rw [List.map_cons, seqLanguage, ih, language]
    ext bs
    constructor
    · rintro ⟨-, rfl, -, rfl, rfl⟩
      rfl
    · rintro rfl
      exact ⟨_, rfl, _, rfl, rfl⟩

end Token

/-- A quoted text matches itself and nothing else. -/
theorem hits_quote_iff {text subject : String} : Hits (quote text) subject ↔ subject = text := by
  have hleading : text.toList.map Token.literal ≠ [.leading] := by
    cases text.toList with
    | nil => simp
    | cons c cs => simp
  rw [hits_iff_of_tokens (Token.ofString_quote text), Token.seqLanguage_literals,
    or_iff_right hleading]
  constructor
  · intro h
    have hencode : Utf8.encodeChars subject.toList = Utf8.encodeChars text.toList := h
    exact String.toList_inj.1 (Utf8.encodeChars_inj.1 hencode)
  · rintro rfl
    rfl

theorem compiles_quote (text : String) : Compiles (quote text) :=
  compiles_of_tokens (Token.ofString_quote text)

/-- A plain text, a slash and two stars match what lies below the text. -/
theorem hits_subtree_iff {cs : List Char} {subject : String} (hcs : ∀ c ∈ cs, IsPlain c) :
    Hits (String.ofList (cs ++ ['/', '*', '*'])) subject ↔ cs ++ ['/'] <+: subject.toList := by
  have hleading : cs.map Token.literal ++ [.trailing] ≠ [.leading] := by
    cases cs <;> simp
  have htrailing : Token.seqLanguage [.trailing] =
      oneByte (· == slash) * bytesOf fun _ => true := by
    simp [Token.seqLanguage, Token.language]
  have hslash : Utf8.encodeChars ['/'] = [slash] := rfl
  rw [hits_iff_of_tokens (Token.ofString_subtree hcs), or_iff_right hleading,
    Token.seqLanguage_append, Token.seqLanguage_literals, htrailing, ← Utf8.encodeChars_isPrefix_iff]
  constructor
  · rintro ⟨-, rfl, -, ⟨-, ⟨b, hb, rfl⟩, rest, -, rfl⟩, hbytes⟩
    rw [beq_iff_eq] at hb
    refine ⟨rest, ?_⟩
    rw [Utf8.encodeChars, List.flatMap_append, List.append_assoc]
    simpa [hslash, hb, Utf8.encode] using hbytes
  · rintro ⟨rest, hrest⟩
    refine ⟨_, rfl, slash :: rest, ⟨[slash], ⟨slash, by simp, rfl⟩, rest, by simp [bytesOf], rfl⟩, ?_⟩
    rw [Utf8.encodeChars, List.flatMap_append, List.append_assoc] at hrest
    simpa [hslash, Utf8.encode] using hrest

theorem compiles_subtree {cs : List Char} (hcs : ∀ c ∈ cs, IsPlain c) :
    Compiles (String.ofList (cs ++ ['/', '*', '*'])) :=
  compiles_of_tokens (Token.ofString_subtree hcs)

end PathGuard.Glob
