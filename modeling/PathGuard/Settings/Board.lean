import PathGuard.Settings.Basic

/-!
# Board of current settings

A board shows the settings in force. Posting new ones counts up its edition, whether they differ or
not. Receivers remember the edition they last saw; so do followers, which keep a switch equal to the
settings shown, but act only when they are let run. A board that is closed shows its last settings.

## Main definitions

- `Board.post`, `Board.close`: changes by the owner
- `Board.subscribe`, `Board.receive?`: a receiver's part
- `Board.follow`, `Board.settle`: the followers' part
-/

namespace PathGuard

/-- The settings in force, and who has seen which edition of them. -/
structure Board where
  current : Settings
  /-- How many times new settings were posted. -/
  edition : Nat
  /-- The document that the settings were loaded from, if one was named. -/
  source : Option String
  isOpen : Bool
  /-- The edition that each receiver last saw. -/
  receivers : List Nat
  /-- The edition that each follower last saw. -/
  followers : List Nat
  deriving Repr

namespace Board

def fresh (settings : Settings) (source : Option String) : Board :=
  ⟨settings, 0, source, true, [], []⟩

def post (b : Board) (settings : Settings) : Board :=
  { b with current := settings, edition := b.edition + 1 }

/-- Adds a receiver, for which the settings shown are not new. The number is its index. -/
def subscribe (b : Board) : Nat × Board :=
  (b.receivers.length, { b with receivers := b.receivers ++ [b.edition] })

/-- Lets a receiver look. The flag says whether anything was posted since it last did. -/
def receive? (b : Board) (index : Nat) : Option (Bool × Board) :=
  b.receivers[index]?.map fun seen =>
    (seen != b.edition, { b with receivers := b.receivers.set index b.edition })

/-- Adds a follower, for which the settings shown are not new. -/
def follow (b : Board) : Board :=
  { b with followers := b.edition :: b.followers }

/-- Whether some follower has not seen the settings shown. -/
def isUnseen (b : Board) : Bool :=
  b.followers.any (· != b.edition)

/-- Lets the followers run. The result is the value that they give to the switch, if any of them has
    not seen the settings shown. -/
def settle (b : Board) : Option Bool × Board :=
  (if b.isUnseen then some b.current.enforced else none,
    { b with followers := b.followers.map fun _ => b.edition })

def close (b : Board) : Option Bool × Board :=
  let (value, b) := b.settle
  (value, { b with isOpen := false, followers := [] })

end Board

end PathGuard
