import HeaderAudit.Failure
import HeaderAudit.OrderedSet
import HeaderAudit.Path.Order
import HeaderAudit.Settings

/-! The root is looked at first, then the exclusion list is read, and only then
are directories walked. A watched directory that is missing is passed over. -/

namespace HeaderAudit

namespace FileTree

/-- The files below one watched directory, as candidates. -/
def watchedFiles (tree : FileTree) (settings : Settings) (directory : Path) :
    Except Failure (List Path) :=
  let start := settings.root.join directory
  if tree.isDirectory start then
    match tree.walk settings.followLinks settings.maxDepth start with
    | .error cause => .error (.walk cause)
    | .ok files =>
        .ok (files.map fun file => (settings.root.relativeTo file).normalForm)
  else
    .ok []

/-- The named files that are there, as candidates. -/
def namedFiles (tree : FileTree) (settings : Settings) : List Path :=
  (settings.includeFiles.filter fun file =>
      tree.isFile (settings.root.join file)).map
    Path.normalForm

/-- The candidates of a run. -/
def candidates (tree : FileTree) (settings : Settings) :
    Except Failure (List Path) := do
  if !tree.isDirectory settings.root then
    .error (.rootMissing settings.root)
  else
    let exclusion ←
      (Exclusion.ofEntries settings.exclude).mapError .badExclusion
    let watched ← settings.includeDirs.mapM (tree.watchedFiles settings)
    let found :=
      OrderedSet.insertAll [] (watched.flatten ++ tree.namedFiles settings)
    pure (found.filter fun path => !exclusion.excludes path)

end FileTree

end HeaderAudit
