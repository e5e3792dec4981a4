import PathGuard.Glob.Token

/-!
# Matching by marks

A subject is a list of bytes. A list of marks has one entry for each position of the subject, from
the position before the first byte to the one after the last, and says which positions a pattern can
have reached. A token takes the positions at which it may start to those at which it may end, so a
whole pattern is matched in one pass over its tokens and no position is looked at twice for a token.

## Main definitions

- `Marks.step`, `Marks.run`: a byte of a kind, and any number of them
- `Token.reach`: the effect of a token on marks
- `Token.accepts`: whether a sequence of tokens matches a subject from end to end
-/

namespace PathGuard.Glob

/-- The positions of a subject that have been reached. -/
abbrev Marks := List Bool

def slash : UInt8 := 0x2f

namespace Marks

def start (subject : List UInt8) : Marks :=
  true :: subject.map fun _ => false

def union (m n : Marks) : Marks :=
  List.zipWith (· || ·) m n

def step (kind : UInt8 → Bool) (subject : List UInt8) (m : Marks) : Marks :=
  false :: List.zipWith (fun reached b => reached && kind b) m subject

/-- Goes over any number of bytes of a kind; `reached` says whether the byte before was reached and
    gone over. -/
def runFrom (kind : UInt8 → Bool) (reached : Bool) : List UInt8 → Marks → Marks
  | _, [] => []
  | [], mark :: _ => [mark || reached]
  | b :: subject, mark :: marks =>
    (mark || reached) :: runFrom kind ((mark || reached) && kind b) subject marks

/-- Goes over any number of bytes of a kind, none included. -/
def run (kind : UInt8 → Bool) (subject : List UInt8) (m : Marks) : Marks :=
  runFrom kind false subject m

def atEnd (m : Marks) : Bool :=
  m.getLastD false

theorem length_start (subject : List UInt8) : (start subject).length = subject.length + 1 := by
  simp [start]

theorem length_step (kind : UInt8 → Bool) (subject : List UInt8) (m : Marks)
    (h : m.length = subject.length + 1) : (m.step kind subject).length = subject.length + 1 := by
  simp [step, h]

/-- Going over any number of bytes keeps the number of positions. -/
theorem length_runFrom (kind : UInt8 → Bool) (reached : Bool) (subject : List UInt8) (m : Marks)
    (h : m.length = subject.length + 1) :
    (runFrom kind reached subject m).length = subject.length + 1 := by
  induction subject generalizing m reached with
  | nil =>
    cases m with
    | nil => simp at h
    | cons mark marks => simp [runFrom]
  | cons b subject ih =>
    cases m with
    | nil => simp at h
    | cons mark marks => simpa [runFrom] using ih _ marks (by simpa using h)

end Marks

namespace Token

mutual

/-- Whether a token adds nothing to a pattern: a group none of whose branches adds anything. -/
def isVoid : Token → Bool
  | .group branches => allVoid branches
  | _ => false

/-- Whether no token of a sequence adds anything to a pattern. -/
def isVoidSeq : List Token → Bool
  | [] => true
  | t :: ts => t.isVoid && isVoidSeq ts

/-- Whether no sequence of several adds anything to a pattern. -/
def allVoid : List (List Token) → Bool
  | [] => true
  | ts :: branches => isVoidSeq ts && allVoid branches

end

mutual

/-- The positions at which a token may end when it starts at one of the given positions. Branches
    that add nothing do not count; a group without any other matches the empty text. -/
def reach (subject : List UInt8) : Token → Marks → Marks
  | .literal c, m => (String.utf8EncodeChar c).foldl (fun m b => m.step (· == b) subject) m
  | .any, m => m.step (· != slash) subject
  | .star, m => m.run (· != slash) subject
  | .leading, m => m.union ((m.run (fun _ => true) subject).step (· == slash) subject)
  | .trailing, m => (m.step (· == slash) subject).run (fun _ => true) subject
  | .spanning, m =>
    let one := m.step (· == slash) subject
    one.union ((one.run (fun _ => true) subject).step (· == slash) subject)
  | .cls k, m => m.step k.holds subject
  | .group branches, m => if allVoid branches then m else reachAny subject branches m

/-- The positions at which a sequence of tokens may end. -/
def reachSeq (subject : List UInt8) : List Token → Marks → Marks
  | [], m => m
  | t :: ts, m => reachSeq subject ts (reach subject t m)

/-- The positions at which some sequence, of those that add something, may end. -/
def reachAny (subject : List UInt8) : List (List Token) → Marks → Marks
  | [], m => m.map fun _ => false
  | ts :: branches, m =>
    let later := reachAny subject branches m
    if isVoidSeq ts then later else (reachSeq subject ts m).union later

end

/-- Whether a pattern matches a subject from end to end. A pattern that is nothing but two leading
    stars matches every subject. -/
def accepts (pattern : List Token) (subject : List UInt8) : Bool :=
  match pattern with
  | [.leading] => true
  | _ => (reachSeq subject pattern (Marks.start subject)).atEnd

end Token

end PathGuard.Glob
