import HeaderAudit.Category
import HeaderAudit.Path.Order

/-! Violations are ordered by path and then by category; two spellings of one
path are one violation. -/

namespace HeaderAudit

/-- A candidate that does not begin with the header of its category. -/
structure Violation where
  path : Path
  category : Category
  deriving DecidableEq, Repr

instance : Ord Violation where
  compare :=
    compareLex (compareOn Violation.path) (compareOn Violation.category)

/-- The result of a run that was completed. -/
structure Report where
  /-- The root of the run. -/
  root : Path
  /-- The number of candidates that were read. -/
  processedFiles : Nat
  /-- There was no violation. -/
  ok : Bool
  /-- The violations in their order. -/
  violations : List Violation
  deriving DecidableEq, Repr

namespace Report

/-- The report of a run with these violations. -/
def ofViolations
    (root : Path) (processedFiles : Nat) (violations : List Violation) :
    Report where
  root := root
  processedFiles := processedFiles
  ok := violations.isEmpty
  violations := violations

/-- The paths of the violations in their order. -/
def violationPaths (report : Report) : List Path :=
  report.violations.map Violation.path

end Report

end HeaderAudit
