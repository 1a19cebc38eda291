import HeaderAudit.Candidates.Log
import HeaderAudit.Header
import HeaderAudit.Report.Basic

/-! An audit finds the candidates once and then reads and judges them in their
order. The watcher is told of each just before it is read and may change the
tree, which the following reads see and the list of candidates does not. -/

namespace HeaderAudit

/-- What is done when a candidate is about to be read. -/
abbrev Watcher (state : Type) :=
  state × FileTree → Path → state × FileTree

/-- The verdict on a file with these bytes.  Bytes of an ungoverned file are
not looked at. -/
def judge (path : Path) (category : Category) (bytes : List UInt8) :
    Except Failure Bool :=
  if category.isGoverned then
    match Utf8.decode bytes with
    | some content => .ok (category.admits content)
    | none => .error (.notUtf8 path)
  else
    .ok true

/-- The content of the file at a path, or the failure to read it. -/
def FileTree.readCandidate (tree : FileTree) (path : Path) :
    Except Failure (List UInt8) :=
  (tree.read path).mapError (.unreadable path)

/-- The violation at a candidate, if it is one. -/
def FileTree.examine (tree : FileTree) (root path : Path) :
    Except Failure (Option Violation) := do
  let category := Category.ofPath path
  let bytes ← tree.readCandidate (root.join path)
  let good ← judge path category bytes
  pure (if good then none else some ⟨path, category⟩)

/-- How far an audit has come: what the watcher left, how many candidates were
examined, the violations among them, and what was logged. -/
structure Progress (state : Type) where
  watched : state
  tree : FileTree
  processed : Nat := 0
  violations : List Violation := []
  log : List LogEvent := []

variable {state : Type}

namespace Progress

/-- Tell the watcher of a candidate. -/
def tell (watcher : Watcher state) (path : Path) (progress : Progress state) :
    Progress state :=
  let (watched, tree) := watcher (progress.watched, progress.tree) path
  { progress with watched, tree }

/-- Count a candidate and keep the violation that it is.  The verdict on a
governed candidate is logged. -/
def count (path : Path) (verdict : Option Violation)
    (progress : Progress state) : Progress state :=
  let category := Category.ofPath path
  { progress with
    processed := progress.processed + 1
    violations :=
      match verdict with
      | some violation => OrderedSet.insert violation progress.violations
      | none => progress.violations
    log :=
      if category.isGoverned then
        progress.log ++ [.checked path category verdict.isNone]
      else
        progress.log }

/-- The report on what was examined. -/
def report (root : Path) (progress : Progress state) : Report :=
  .ofViolations root progress.processed progress.violations

end Progress

/-- Examine candidates one after the other until one fails. -/
def examineAll (root : Path) (watcher : Watcher state) :
    Progress state → List Path → Except Failure Unit × Progress state
  | progress, [] => (.ok (), progress)
  | progress, path :: rest =>
      let progress := progress.tell watcher path
      match progress.tree.examine root path with
      | .error failure => (.error failure, progress)
      | .ok verdict =>
          examineAll root watcher (progress.count path verdict) rest

/-- How an audit ended, and what it left behind. -/
structure AuditResult (state : Type) where
  outcome : Except Failure Report
  watched : state
  tree : FileTree
  log : List LogEvent

/-- The end of an audit that has come this far. -/
def Progress.result
    (root : Path) (ended : Except Failure Unit) (progress : Progress state) :
    AuditResult state :=
  match ended with
  | .error failure =>
      ⟨.error failure, progress.watched, progress.tree, progress.log⟩
  | .ok () =>
      ⟨.ok (progress.report root), progress.watched, progress.tree,
        progress.log ++
          [.finished progress.processed progress.violations.length]⟩

/-- Audit a tree. -/
def audit
    (settings : Settings) (watcher : Watcher state)
    (watched : state) (tree : FileTree) :
    AuditResult state :=
  let searched := tree.searchLog settings
  match tree.candidates settings with
  | .error failure => ⟨.error failure, watched, tree, searched⟩
  | .ok candidates =>
      let log := searched ++ [.checking settings.root candidates.length]
      let (ended, progress) :=
        examineAll settings.root watcher { watched, tree, log } candidates
      progress.result settings.root ended

end HeaderAudit
