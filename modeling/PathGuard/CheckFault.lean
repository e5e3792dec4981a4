/-!
# Faults of checks

The reasons for which a check of a path fails instead of giving a permission, and the text that
reports each of them.
-/

namespace PathGuard

/-- The two lists of patterns in a user's rules. -/
inductive RuleSide where
  /-- The patterns of the paths that are shown. -/
  | inclusion
  /-- The patterns of the paths that are hidden. -/
  | exclusion
  deriving DecidableEq, Repr

def RuleSide.name : RuleSide → String
  | inclusion => "include"
  | exclusion => "exclude"

/-- Why a store does not answer. -/
inductive StoreFault where
  | unavailable (detail : String)
  | backend (detail : String)
  deriving DecidableEq, Repr

def StoreFault.message : StoreFault → String
  | unavailable detail => "rule store unavailable: " ++ detail
  | backend detail => "rule store backend error: " ++ detail

/-- What a store was asked for. -/
inductive Enquiry where
  /-- Whether a repository has path rules at all. -/
  | support
  | rules
  deriving DecidableEq, Repr

def Enquiry.description : Enquiry → String
  | support => "checking for sub-repo permissions support"
  | rules => "getting permissions"

/-- Why a check fails. -/
inductive CheckFault where
  | unauthenticated
  | misconfigured (detail : String)
  | store (enquiry : Enquiry) (cause : StoreFault)
  | refusedPattern (side : RuleSide) (pattern reason : String)
  deriving DecidableEq, Repr

namespace CheckFault

def noStore : CheckFault := misconfigured "rule store is not configured"

def cause? : CheckFault → Option StoreFault
  | store _ cause => some cause
  | _ => none

def message : CheckFault → String
  | unauthenticated => "unauthenticated"
  | misconfigured detail => "misconfiguration: " ++ detail
  | store enquiry cause => enquiry.description ++ ": " ++ cause.message
  | refusedPattern side pattern reason =>
    "building " ++ side.name ++ " matcher for pattern '" ++ pattern ++ "': " ++ reason

end CheckFault

end PathGuard
