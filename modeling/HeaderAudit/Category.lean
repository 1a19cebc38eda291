import HeaderAudit.Path.Basic

/-! The last component of a path decides the category. One that is no name, or
no UTF-8, leaves the file ungoverned. -/

namespace HeaderAudit

/-- The kinds of files that the notice rules tell apart. -/
inductive Category where
  | compiledSource
  | header
  | script
  | buildConfig
  | other
  deriving DecidableEq, Repr

namespace Category

/-- The suffix of compiled sources. -/
def compiledSourceSuffix : String := ".cpp"

/-- The suffix of headers. -/
def headerSuffix : String := ".hpp"

/-- The suffix of scripts. -/
def scriptSuffix : String := ".py"

/-- The whole name of a build configuration. -/
def buildConfigName : String := "CMakeLists.txt"

/-- Every category, in order. -/
def all : List Category :=
  [.compiledSource, .header, .script, .buildConfig, .other]

/-- The place of a category in the order. -/
def rank : Category → Nat
  | .compiledSource => 0
  | .header => 1
  | .script => 2
  | .buildConfig => 3
  | .other => 4

instance : Ord Category where
  compare := compareOn rank

/-- The name of a category in reports. -/
def label : Category → String
  | .compiledSource => "compiled-source"
  | .header => "header"
  | .script => "script"
  | .buildConfig => "build-config"
  | .other => "other"

/-- A governed file must carry the notice. -/
def isGoverned : Category → Bool
  | .other => false
  | _ => true

/-- The category of a file with this name. -/
def ofName (name : List Char) : Category :=
  if compiledSourceSuffix.toList.isSuffixOf name then
    .compiledSource
  else if headerSuffix.toList.isSuffixOf name then
    .header
  else if scriptSuffix.toList.isSuffixOf name then
    .script
  else if name = buildConfigName.toList then
    .buildConfig
  else
    .other

/-- The category of the file at a path. -/
def ofPath (path : Path) : Category :=
  match path.fileName?.bind Utf8.decode with
  | some name => ofName name
  | none => .other

end Category

end HeaderAudit
