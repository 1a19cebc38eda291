import HeaderAudit.Candidates
import HeaderAudit.Walk.Log

/-! When a walk cannot go on nothing more is logged. -/

namespace HeaderAudit.FileTree

/-- What is logged for one watched directory. -/
def watchedLog (tree : FileTree) (settings : Settings) (directory : Path) :
    LogPart :=
  let start := settings.root.join directory
  if tree.isDirectory start then
    tree.walkLog settings.followLinks settings.maxDepth start
  else
    ⟨[.noDirectory directory], true⟩

/-- The named files that are missing. -/
def missingFiles (tree : FileTree) (settings : Settings) : List Path :=
  settings.includeFiles.filter fun file =>
    !tree.isFile (settings.root.join file)

/-- What is logged while the candidates of a run are looked for. -/
def searchLog (tree : FileTree) (settings : Settings) : List LogEvent :=
  if !tree.isDirectory settings.root then
    []
  else
    match Exclusion.ofEntries settings.exclude with
    | .error _ => []
    | .ok exclusion =>
        let walks :=
          LogPart.sequence (settings.includeDirs.map (tree.watchedLog settings))
        match settings.includeDirs.mapM (tree.watchedFiles settings) with
        | .error _ => walks.events
        | .ok watched =>
            let found :=
              OrderedSet.insertAll []
                (watched.flatten ++ tree.namedFiles settings)
            walks.events ++
              (tree.missingFiles settings).map .noFile ++
                (found.filter exclusion.excludes).map .excluded

end HeaderAudit.FileTree
