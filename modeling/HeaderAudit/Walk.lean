import HeaderAudit.FileTree.Lookup

/-! A directory that is an entry itself is always entered, a link only when
links are followed; it must then lead somewhere, and not to a directory that
the walk is inside of. An ordinary directory can be met again below a followed
link. -/

namespace HeaderAudit

/-- Why a walk cannot go on. -/
inductive WalkError where
  | unreachable (path : Path) (cause : LookupError)
  | loop (path ancestor : Path)
  deriving DecidableEq, Repr

namespace WalkError

/-- The path at which the walk ended. -/
def path : WalkError → Path
  | .unreachable path _ => path
  | .loop path _ => path

/-- The wording of a fault. -/
def message : WalkError → String
  | .unreachable path cause =>
      "IO error for operation on " ++ path.display ++ ": " ++ cause.message
  | .loop path ancestor =>
      "File system loop found: " ++ path.display ++
        " points to an ancestor " ++ ancestor.display

end WalkError

/-- A directory that a walk is inside of: the path it was met by, and where it
is. -/
structure Ancestor where
  path : Path
  location : Location
  deriving DecidableEq

namespace FileTree

/-- Where a walk goes on below an entry, if it is entered.  The directories
around the entry are given from the innermost to the outermost. -/
def descent
    (tree : FileTree) (followLinks : Bool) (ancestors : List Ancestor)
    (path : Path) (location : Location) :
    Except WalkError (Option Ancestor) :=
  match tree.node? location with
  | some .directory => .ok (some ⟨path, location⟩)
  | some (.link _) =>
      if followLinks then
        match tree.find path with
        | .error cause => .error (.unreachable path cause)
        | .ok (target, .directory) =>
            match ancestors.find? (·.location = target) with
            | some ancestor => .error (.loop path ancestor.path)
            | none => .ok (some ⟨path, target⟩)
        | .ok _ => .ok none
      else
        .ok none
  | _ => .ok none

/-- The files that one entry of a directory gives: the entry itself, if its
path leads to a file, and before all others; then the files below it, if it is
entered. -/
def entryFiles
    (tree : FileTree) (followLinks : Bool) (ancestors : List Ancestor)
    (below : Ancestor → Except WalkError (List Path))
    (directory : Path) (here : Location) (name : EntryName) :
    Except WalkError (List Path) :=
  let path := directory.join ⟨name.bytes⟩
  let own := if tree.isFile path then [path] else []
  match tree.descent followLinks ancestors path (name :: here) with
  | .error fault => .error fault
  | .ok none => .ok own
  | .ok (some entered) =>
      match below entered with
      | .error fault => .error fault
      | .ok found => .ok (own ++ found)

/-- The files below the innermost of the given directories, down to a depth
below it. -/
def filesBelow (tree : FileTree) (followLinks : Bool) :
    Nat → Ancestor → List Ancestor → Except WalkError (List Path)
  | 0, _, _ => .ok []
  | depth + 1, directory, outer =>
      match tree.openDirectory directory.path with
      | .error cause => .error (.unreachable directory.path cause)
      | .ok here =>
          List.flatten <$>
            (tree.listing here).mapM
              (tree.entryFiles followLinks (directory :: outer)
                (fun entered =>
                  tree.filesBelow followLinks depth entered
                    (directory :: outer))
                directory.path here)

/-- The files of a directory, down to a depth.  The directory itself is
entered also when its path is a link. -/
def walk
    (tree : FileTree) (followLinks : Bool) (maxDepth : Nat)
    (directory : Path) :
    Except WalkError (List Path) :=
  match tree.locate directory with
  | .error cause => .error (.unreachable directory cause)
  | .ok here => tree.filesBelow followLinks maxDepth ⟨directory, here⟩ []

end FileTree

end HeaderAudit
