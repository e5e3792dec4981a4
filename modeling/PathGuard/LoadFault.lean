/-!
# Faults of loading

The reasons for which settings or a rules document cannot be loaded, and the text that reports each
of them.
-/

namespace PathGuard

/-- The two kinds of documents that are loaded from files. -/
inductive DocumentKind where
  | settings
  | rules
  deriving DecidableEq, Repr

def DocumentKind.name : DocumentKind → String
  | settings => "Configuration"
  | rules => "Rules"

/-- Why a document cannot be loaded. -/
inductive LoadFault where
  /-- There is no file at the path that was asked for. -/
  | notFound (kind : DocumentKind) (path : String)
  | malformed (detail : String)
  | invalid (detail : String)
  | missing (detail : String)
  /-- The file is there and cannot be read as text. -/
  | unreadable (path : String)
  deriving DecidableEq, Repr

def LoadFault.message : LoadFault → String
  | notFound kind path =>
    "Failed to load configuration: " ++ kind.name ++ " file not found: " ++ path
  | malformed detail => "Failed to load configuration: " ++ detail
  | invalid detail => "Invalid configuration: " ++ detail
  | missing detail => "Missing required configuration: " ++ detail
  | unreadable path => "IO error: cannot read " ++ path

end PathGuard
