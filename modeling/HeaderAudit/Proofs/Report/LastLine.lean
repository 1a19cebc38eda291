import HeaderAudit.Proofs.Category
import HeaderAudit.Report.Text

/-! A path may hold newlines, so an announced path can look like any number of
lines. The end of a governed path is known and is no success line. -/

namespace HeaderAudit

namespace Report

/-- The announcements of these paths. -/
def progress (paths : List Path) : String :=
  String.join (paths.map progressLine)

end Report

end HeaderAudit
