/-!
# Actors

On whose behalf a path is looked at: a user with a number, nobody in particular, or the system
itself. The user number zero belongs to nobody.
-/

namespace PathGuard

/-- The number of a user. Zero stands for nobody. -/
abbrev UserId := Int

/-- The user numbers that can be written down: the signed integers of 32 bits. -/
def UserId.InRange (n : Int) : Prop :=
  -2147483648 ≤ n ∧ n ≤ 2147483647

instance (n : Int) : Decidable (UserId.InRange n) :=
  inferInstanceAs (Decidable (_ ∧ _))

abbrev RepoName := String

/-- On whose behalf a path is looked at. -/
structure Actor where
  user : UserId
  /-- The system itself, whatever the user number. -/
  internal : Bool
  deriving DecidableEq, Repr

namespace Actor

def anonymous : Actor := ⟨0, false⟩

def system : Actor := ⟨0, true⟩

def ofUser (user : UserId) : Actor := ⟨user, false⟩

def isAuthenticated (a : Actor) : Bool :=
  a.internal || a.user != 0

end Actor

end PathGuard
