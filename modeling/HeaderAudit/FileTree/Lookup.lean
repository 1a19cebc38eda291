import HeaderAudit.FileTree.Basic

/-! Every step of a lookup, also one that stays where it is, needs a directory
to start from; so a slash after the name of a file is a fault, and a step up
after a link leaves the directory that the link leads to. -/

namespace HeaderAudit

/-- The greatest number of bytes in a path that is looked up. -/
def longestPath : Nat := 4095

/-- The greatest number of links that one lookup follows. -/
def mostLinks : Nat := 40

/-- Why a path leads to nothing, or to nothing that can be read. -/
inductive LookupError where
  | noEntry
  | denied
  | notDirectory
  | isDirectory
  | noDevice
  | nameTooLong
  | tooManyLinks
  | nulByte
  deriving DecidableEq, Repr

/-- The wording of a fault. -/
def LookupError.message : LookupError → String
  | .noEntry => "No such file or directory (os error 2)"
  | .denied => "Permission denied (os error 13)"
  | .notDirectory => "Not a directory (os error 20)"
  | .isDirectory => "Is a directory (os error 21)"
  | .noDevice => "No such device or address (os error 6)"
  | .nameTooLong => "File name too long (os error 36)"
  | .tooManyLinks => "Too many levels of symbolic links (os error 40)"
  | .nulByte => "file name contained an unexpected NUL byte"

/-- One step of a lookup. -/
inductive Step where
  | stay
  | up
  | enter (name : EntryName)
  | overlong
  deriving DecidableEq

/-- The step that the text between two slashes asks for. -/
def Step.ofPiece (piece : List UInt8) : Step :=
  if piece = [] ∨ piece = [dot] then
    .stay
  else if piece = [dot, dot] then
    .up
  else
    match EntryName.ofBytes? piece with
    | some name => .enter name
    | none => .overlong

/-- The steps of a path. -/
def Path.steps (path : Path) : List Step :=
  path.pieces.map Step.ofPiece

namespace FileTree

/-- Where the steps of a path start, seen from a directory. -/
def startOf (path : Path) (directory : Location) : Location :=
  if path.isAbsolute then [] else directory

/-- Take steps until a link is met; the remaining lookup is then left to
`redirect`, with the steps of the link before the ones that remain. -/
def advance
    (tree : FileTree)
    (redirect : Location → List Step → Except LookupError Location) :
    Location → List Step → Except LookupError Location
  | location, [] => .ok location
  | location, step :: rest =>
      match tree.node? location with
      | some .directory =>
          match step with
          | .stay => advance tree redirect location rest
          | .up => advance tree redirect location.tail rest
          | .overlong => .error .nameTooLong
          | .enter name =>
              match tree.node? (name :: location) with
              | some (.link target) =>
                  redirect (startOf target location) (target.steps ++ rest)
              | some _ => advance tree redirect (name :: location) rest
              | none => .error .noEntry
      | some _ => .error .notDirectory
      | none => .error .noEntry

/-- Take steps and follow at most the given number of links. -/
def resolve (tree : FileTree) :
    Nat → Location → List Step → Except LookupError Location
  | 0 => tree.advance fun _ _ => .error .tooManyLinks
  | links + 1 =>
      tree.advance fun location steps => tree.resolve links location steps

/-- Where a path leads. -/
def locate (tree : FileTree) (path : Path) : Except LookupError Location :=
  if 0 ∈ path.bytes then
    .error .nulByte
  else if path.bytes = [] then
    .error .noEntry
  else if longestPath < path.bytes.length then
    .error .nameTooLong
  else
    tree.resolve mostLinks (startOf path tree.workingDirectory) path.steps

/-- What a path leads to, and where that is. -/
def find (tree : FileTree) (path : Path) :
    Except LookupError (Location × Node) :=
  match tree.locate path with
  | .error cause => .error cause
  | .ok location =>
      match tree.node? location with
      | some node => .ok (location, node)
      | none => .error .noEntry

/-- The path leads to a directory. -/
def isDirectory (tree : FileTree) (path : Path) : Bool :=
  match tree.find path with
  | .ok (_, .directory) => true
  | _ => false

/-- The path leads to a file. -/
def isFile (tree : FileTree) (path : Path) : Bool :=
  match tree.find path with
  | .ok (_, .file _) => true
  | _ => false

/-- Where the directory is that a path leads to, when it may be listed. -/
def openDirectory (tree : FileTree) (path : Path) :
    Except LookupError Location :=
  match tree.locate path with
  | .error cause => .error cause
  | .ok location =>
      if location ∈ tree.unreadable then .error .denied else .ok location

/-- The content of the file that a path leads to, when it may be read. -/
def read (tree : FileTree) (path : Path) :
    Except LookupError (List UInt8) :=
  match tree.find path with
  | .error cause => .error cause
  | .ok (location, node) =>
      if location ∈ tree.unreadable then
        .error .denied
      else
        match node with
        | .file content => .ok content
        | .directory => .error .isDirectory
        | .socket => .error .noDevice
        | .link _ => .error .tooManyLinks

end FileTree

end HeaderAudit
