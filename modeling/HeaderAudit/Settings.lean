import HeaderAudit.Path.Basic

/-! All paths other than the root are relative to it. -/

namespace HeaderAudit

/-- Everything that decides which files a run looks at. -/
structure Settings where
  /-- The directory that candidates are named from. -/
  root : Path
  /-- Directories whose files are candidates, at any depth. -/
  includeDirs : List Path
  /-- Files that are candidates when they are there. -/
  includeFiles : List Path
  /-- Paths and patterns of files that are no candidates. -/
  exclude : List String
  /-- Links to directories are followed below the watched directories. -/
  followLinks : Bool
  /-- The greatest depth below a watched directory. -/
  maxDepth : Nat
  deriving DecidableEq, Repr

namespace Settings

/-- The settings for the layout of the source tree. -/
def standard : Settings where
  root := Path.ofString "."
  includeDirs := ["app", "lib", "scripts"].map Path.ofString
  includeFiles :=
    ["third_party/CMakeLists.txt", "CMakeLists.txt"].map Path.ofString
  exclude := ["scripts/run-clang-tidy.py"]
  followLinks := false
  maxDepth := 64

/-- The standard settings for another root. -/
def withRoot (root : Path) : Settings :=
  { standard with root }

end Settings

end HeaderAudit
