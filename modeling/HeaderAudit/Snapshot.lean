import HeaderAudit.FileTree.Lookup
import HeaderAudit.Settings

/-! The part of the file system that a run can look at, copied into a file
tree. A link is copied with the place that it finally leads to; what cannot be
read is unreadable in the copy too, and what cannot be looked at is left out.
-/

namespace HeaderAudit.Snapshot

/-- The copy so far, and the directories that were listed for it. -/
structure Picture where
  tree : FileTree
  listed : List Location

/-- The copy with a location that may not be read. -/
def Picture.seal (picture : Picture) (location : Location) : Picture :=
  let tree := picture.tree
  { picture with
    tree := { tree with unreadable := location :: tree.unreadable } }

/-- What an attempt gives, if it gives anything. -/
def attempt {value : Type} (action : IO value) : IO (Option value) := do
  try
    return some (← action)
  catch _ =>
    return none

/-- The text of a name. -/
def nameText (name : EntryName) : String :=
  Path.display ⟨name.bytes⟩

/-- The text of the path from the top to a location. -/
def locationText (location : Location) : String :=
  "/" ++ "/".intercalate (location.reverse.map nameText)

/-- The location of an absolute path without links and dots. -/
def locationOf (text : String) : Location :=
  ((Path.ofString text).pieces.filterMap EntryName.ofBytes?).reverse

/-- The locations on the way from the top to a location. -/
def wayTo : Location → List Location
  | [] => [[]]
  | name :: parent => wayTo parent ++ [name :: parent]

/-- Copy what is at a location and what it leads to, with everything below
when `deep` is set. -/
partial def addEntry (deep : Bool) (picture : Picture) (location : Location) :
    IO Picture := do
  match location with
  | [] => return picture
  | name :: parent =>
      let entry : IO.FS.DirEntry :=
        { root := locationText parent, fileName := nameText name }
      let put (node : Node) : Picture :=
        { picture with tree := picture.tree.put location node }
      let kind ← attempt do
        let metadata ← entry.path.symlinkMetadata
        return metadata.type
      match kind with
      | none => return picture
      | some .other => return put .socket
      | some .file =>
          match ← attempt (IO.FS.readBinFile entry.path) with
          | some content => return put (.file content.toList)
          | none => return (put (.file [])).seal location
      | some .symlink =>
          if (picture.tree.node? location).isSome then
            return picture
          match ← attempt (IO.FS.realPath entry.path) with
          | some target =>
              let target := target.toString
              (wayTo (locationOf target)).foldlM
                (fun picture way =>
                  addEntry (deep && way == locationOf target) picture way)
                (put (.link (Path.ofString target)))
          | none => return put (.link (Path.ofString "/.missing"))
      | some .dir =>
          if !deep || picture.listed.contains location then
            if (picture.tree.node? location).isSome then
              return picture
            return put .directory
          let entered : Picture :=
            { put .directory with listed := location :: picture.listed }
          match ← attempt entry.path.readDir with
          | none => return entered.seal location
          | some inner =>
              let names := inner.toList.filterMap fun inside =>
                EntryName.ofBytes? (Path.ofString inside.fileName).bytes
              names.foldlM
                (fun picture name => addEntry deep picture (name :: location))
                entered

/-- Copy what a path leads through, and everything below it when `deep` is
set. -/
def addPath (deep : Bool) (picture : Picture) (path : Path) : IO Picture := do
  let mut picture := picture
  let mut here := FileTree.startOf path picture.tree.workingDirectory
  for step in path.steps do
    match step with
    | .stay => pure ()
    | .up => here := here.tail
    | .overlong => return picture
    | .enter name =>
        picture ← addEntry false picture (name :: here)
        match ← attempt (IO.FS.realPath (locationText (name :: here))) with
        | some real => here := locationOf real.toString
        | none => return picture
  addEntry deep picture here

/-- The picture of what a run with these settings can look at. -/
def take (settings : Settings) : IO FileTree := do
  let workingDirectory := locationOf (← IO.currentDir).toString
  let tree := { FileTree.empty with workingDirectory }
  let way ← (wayTo workingDirectory).foldlM (addEntry false) ⟨tree, []⟩
  let rooted ← addPath false way settings.root
  let named ←
    (settings.includeFiles.map settings.root.join).foldlM (addPath false)
      rooted
  let all ←
    (settings.includeDirs.map settings.root.join).foldlM (addPath true) named
  return all.tree

end HeaderAudit.Snapshot
