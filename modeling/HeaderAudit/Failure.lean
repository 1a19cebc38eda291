import HeaderAudit.Exclusion
import HeaderAudit.Walk

/-! A file without its header is not a failure; it is a violation in the
report. -/

namespace HeaderAudit

/-- Why a run has no report. -/
inductive Failure where
  | rootMissing (root : Path)
  | badExclusion (cause : Exclusion.BadEntry)
  | walk (cause : WalkError)
  | unreadable (path : Path) (cause : LookupError)
  | notUtf8 (path : Path)
  deriving DecidableEq, Repr

/-- The wording of a failure. -/
def Failure.message : Failure → String
  | .rootMissing root => "Root directory does not exist: " ++ root.display
  | .badExclusion cause =>
      "Invalid exclude glob pattern '" ++ cause.entry ++ "': " ++
        cause.cause.message
  | .walk cause =>
      "Directory traversal error under " ++ cause.path.display ++ ": " ++
        cause.message
  | .unreadable path cause =>
      "Failed to read " ++ path.display ++ ": " ++ cause.message
  | .notUtf8 path => "File is not valid UTF-8: " ++ path.display

end HeaderAudit
