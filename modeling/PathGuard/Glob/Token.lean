import PathGuard.Glob.Lexeme

/-!
# Tokens of glob patterns

A pattern is a sequence of tokens, and an alternate group is a token that holds a sequence for each
of its branches. `Token.ofLexemes` builds the sequence from left to right; a `Draft` holds the
branch being read and the groups that are open around it. Two stars in a row take a role that
depends on what stands before and after them, and may swallow the slash that follows.

## Main definitions

- `Token`: what a pattern is made of
- `Draft.starRole`: the role of two stars
- `Token.ofString`: the tokens of a pattern, or the first flaw met
-/

namespace PathGuard.Glob

/-- What a pattern is made of. -/
inductive Token where
  | literal (c : Char)
  | any
  | star
  /-- Two stars at the start: nothing, or all up to and with some slash. -/
  | leading
  /-- Two stars at the end, and what stood before them: a slash and whatever follows. -/
  | trailing
  /-- Two stars between slashes: one slash, or two with anything between them. -/
  | spanning
  | cls (cls : CharClass)
  | group (branches : List (List Token))
  deriving Repr

namespace Token

/-- What stands right after two stars. -/
inductive Follower where
  | nothing
  | slash
  | delimiter
  | other
  deriving DecidableEq, Repr

/-- The follower that the coming lexemes make. An escaped slash is none. -/
def Follower.ofLexemes : List Lexeme → Follower
  | [] => nothing
  | .literal '/' false :: _ => slash
  | .comma :: _ => delimiter
  | .closeGroup :: _ => delimiter
  | _ => other

/-- What two stars mean. -/
inductive StarRole where
  | leading
  | trailing
  | spanning
  | twoStars
  deriving DecidableEq, Repr

/-- A group that is being read. Sequences stand last first. -/
structure Frame where
  /-- The branches that are complete. -/
  branches : List (List Token)
  /-- The sequence in which the group stands. -/
  outer : List Token

/-- A pattern that is being read. -/
structure Draft where
  /-- The sequence being read, last token first. -/
  branch : List Token
  /-- The open groups, innermost first. -/
  frames : List Frame
  /-- The last character read. -/
  last : Option Char

namespace Draft

def empty : Draft := ⟨[], [], none⟩

def add (d : Draft) (t : Token) : Draft :=
  { d with branch := t :: d.branch }

/-- Puts a token in the place of the last one, unless that one spans segments from the start or to
    the end already. -/
def replace (d : Draft) (t : Token) : Draft :=
  match d.branch with
  | .leading :: _ => d
  | .trailing :: _ => d
  | _ :: before => { d with branch := t :: before }
  | [] => d.add t

def seen (d : Draft) (c : Option Char) : Draft :=
  { d with last := c }

/-- Whether two stars that are not the first of their branch begin a segment: they come after a
    slash, or after an escaped delimiter of the group they stand in. -/
def atBoundary (d : Draft) : Bool :=
  d.last == some '/' ||
    (!d.frames.isEmpty && (d.last == some ',' || d.last == some '\x7b'))

def starRole (d : Draft) (follower : Follower) : StarRole :=
  if d.branch.isEmpty then
    match follower with
    | .nothing => .leading
    | .slash => .leading
    | _ => .twoStars
  else if d.atBoundary then
    match follower with
    | .nothing => .trailing
    | .slash => .spanning
    | .delimiter => if d.frames.isEmpty then .twoStars else .trailing
    | .other => .twoStars
  else .twoStars

def addStars (d : Draft) : StarRole → Draft
  | .leading => d.add .leading
  | .trailing => d.replace .trailing
  | .spanning => d.replace .spanning
  | .twoStars => (d.add .star).add .star

/-- Reads two stars and the slash after them. Only two plain stars leave the slash a token. -/
def addStarsSlash (d : Draft) : Draft :=
  let role := d.starRole .slash
  let d := d.addStars role
  (if role = .twoStars then d.add (.literal '/') else d).seen (some '/')

def openGroup (d : Draft) : Draft :=
  { d with branch := [], frames := ⟨[], d.branch⟩ :: d.frames }

/-- Goes on to the next branch of the innermost group. Outside of groups a comma stands for
    itself. -/
def nextBranch (d : Draft) : Draft :=
  match d.frames with
  | [] => d.add (.literal ',')
  | frame :: frames =>
    let frame := { frame with branches := d.branch.reverse :: frame.branches }
    { d with branch := [], frames := frame :: frames }

def closeGroup (d : Draft) : Except Flaw Draft :=
  match d.frames with
  | [] => .error .unopenedGroup
  | frame :: frames =>
    .ok { d with
      branch := .group (d.branch.reverse :: frame.branches).reverse :: frame.outer
      frames := frames }

/-- The tokens of a pattern that has been read to its end. -/
def finish (d : Draft) : Except Flaw (List Token) :=
  if d.frames.isEmpty then .ok d.branch.reverse else .error .unclosedGroup

def read (d : Draft) (l : Lexeme) (rest : List Lexeme) : Except Flaw Draft :=
  match l with
  | .any => .ok (d.add .any)
  | .star => .ok (d.add .star)
  | .doubleStar => .ok (d.addStars (d.starRole (.ofLexemes rest)))
  | .literal c _ => .ok (d.add (.literal c))
  | .cls k => .ok (d.add (.cls k))
  | .openGroup => .ok d.openGroup
  | .closeGroup => d.closeGroup
  | .comma => .ok d.nextBranch
  | .flaw f => .error f

end Draft

/-- Reads lexemes into a draft, to the end of the pattern. -/
def build (d : Draft) : List Lexeme → Except Flaw (List Token)
  | [] => d.finish
  | .doubleStar :: .literal '/' false :: rest => build d.addStarsSlash rest
  | l :: rest =>
    match d.read l rest with
    | .ok d => build (d.seen l.lastChar) rest
    | .error f => .error f

/-- The tokens of a pattern, or the first flaw met from left to right. -/
def ofString (pattern : String) : Except Flaw (List Token) :=
  build .empty (Lexeme.ofString pattern)

end Token

end PathGuard.Glob
