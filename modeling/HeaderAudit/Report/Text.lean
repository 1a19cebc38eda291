import HeaderAudit.Header
import HeaderAudit.OrderedSet
import HeaderAudit.Report.Basic

/-! The summary for a terminal is put together on its own and not from the
plain one. -/

namespace HeaderAudit

namespace Report

/-- The only line of a summary without violations. -/
def successLine : String := "OK!"

/-- The first line of a summary with violations. -/
def failureLine : String :=
  "The following files are misformatted, please fix the headers."

/-- Colours of a first line: bold green, bold red. -/
inductive Colour where
  | green
  | red
  deriving DecidableEq, Repr

/-- A text between the escape that starts a colour and the one that ends
it. -/
def Colour.paint : Colour → String → String
  | .green, text => "\x1b[1;32m" ++ text ++ "\x1b[0m"
  | .red, text => "\x1b[1;31m" ++ text ++ "\x1b[0m"

/-- The lines of a text, each with its newline. -/
def unlines (lines : List String) : String :=
  String.join (lines.map (· ++ "\n"))

/-- The line that announces a candidate. -/
def progressLine (path : Path) : String :=
  "Processing " ++ path.display ++ "\n"

/-- The summary of a report. -/
def summary (report : Report) : String :=
  if report.ok then
    unlines [successLine]
  else
    unlines (failureLine :: report.violationPaths.map Path.display)

/-- The summary of a report as it is written to a terminal, line by line. -/
def terminalSummary (report : Report) : String :=
  if report.ok then
    Colour.green.paint successLine ++ "\n"
  else
    report.violationPaths.foldl
      (fun written path => written ++ path.display ++ "\n")
      (Colour.red.paint failureLine ++ "\n")

/-- The categories that are violated, each once and in order. -/
def violatedCategories (report : Report) : List Category :=
  OrderedSet.ofList (report.violations.map Violation.category)

/-- The sentence before an expected header. -/
def hintTitle (category : Category) : String :=
  "Expected header for " ++ category.label ++
    (if category = .script then
      " files (first two lines optional as a pair):"
    else
      " files:")

/-- The hint for a category.  An ungoverned category has none. -/
def hint (category : Category) : String :=
  match Header.expectedText? category true with
  | some text => unlines ["", hintTitle category, text]
  | none => ""

/-- The hints of a report. -/
def hints (report : Report) : String :=
  String.join (report.violatedCategories.map hint)

end Report

end HeaderAudit
