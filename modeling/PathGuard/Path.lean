/-!
# Lexical paths

A path is text whose segments are separated by slashes. This module splits and joins segments,
and brings a path to its canonical spelling without looking at any file system.

## Main definitions

- `Path.segments`: the segments of a text, empty ones included
- `Path.push`: the effect of one segment on the segments kept so far
- `Path.clean`: the canonical spelling of a path
- `Path.join`: the canonical spelling of several paths written one after the other
-/

namespace PathGuard.Path

abbrev Segment := List Char

def here : Segment := ['.']

def parent : Segment := ['.', '.']

/-- The segments of a text; there is one more of them than there are slashes. -/
def segments : List Char → List Segment
  | [] => [[]]
  | c :: cs =>
    let later := segments cs
    if c = '/' then [] :: later else (c :: later.headD []) :: later.tail

def unsegments (segs : List Segment) : List Char :=
  ['/'].intercalate segs

def isRooted (cs : List Char) : Bool :=
  cs.head? == some '/'

/-- Takes one segment into the kept ones, which stand last first. Empty segments and `here` change
    nothing. `parent` removes the last name; with no name to remove it is kept, except at the root,
    which is its own parent. -/
def push (rooted : Bool) (kept : List Segment) (seg : Segment) : List Segment :=
  if seg = [] ∨ seg = here then kept
  else if seg = parent then
    match kept with
    | [] => if rooted then [] else [parent]
    | last :: before => if last = parent then parent :: last :: before else before
  else seg :: kept

/-- The segments that remain, in reading order, after every one has been pushed. -/
def reduce (rooted : Bool) (segs : List Segment) : List Segment :=
  (segs.foldl (push rooted) []).reverse

/-- The canonical spelling of a text: the remaining segments, after a slash if the text is rooted,
    and `here` where an unrooted text would become empty. -/
def cleanChars (cs : List Char) : List Char :=
  let kept := reduce (isRooted cs) (segments cs)
  if isRooted cs then '/' :: unsegments kept
  else if kept.isEmpty then here
  else unsegments kept

def clean (path : String) : String :=
  String.ofList (cleanChars path.toList)

/-- Writes the non-empty elements one after the other, as one canonical path. Nothing comes of
    nothing: without a non-empty element the result is empty. -/
def join (elements : List String) : String :=
  match elements.filter (· ≠ "") with
  | [] => ""
  | parts => String.ofList (cleanChars (unsegments (parts.map String.toList)))

theorem segments_ne_nil (cs : List Char) : segments cs ≠ [] := by
  cases cs with
  | nil => simp [segments]
  | cons c cs => simp only [segments]; split <;> simp

/-- Writing the segments of a text gives the text back. -/
theorem unsegments_segments (cs : List Char) : unsegments (segments cs) = cs := by
  induction cs with
  | nil => rfl
  | cons c cs ih =>
    simp only [segments]
    cases h : segments cs with
    | nil => exact absurd h (segments_ne_nil cs)
    | cons seg segs =>
      rw [h] at ih
      split
      · next hc =>
        subst hc
        simp [unsegments, List.intercalate, List.intersperse] at ih ⊢
        exact ih
      · cases segs <;> simp_all [unsegments, List.intercalate, List.intersperse]

end PathGuard.Path
