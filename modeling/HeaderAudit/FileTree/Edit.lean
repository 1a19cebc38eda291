import HeaderAudit.FileTree.Lookup

/-! Missing directories on the way are made first. A file is written through a
link, everything else in place. An edit that cannot be made leaves the tree as
it is. -/

namespace HeaderAudit

/-- One change of a file tree. -/
inductive Edit where
  | file (path : Path) (content : List UInt8)
  | directory (path : Path)
  | link (path target : Path)
  | socket (path : Path)
  | remove (path : Path)
  deriving DecidableEq, Repr

/-- The last step of a path that does more than stay, and the steps before
it. -/
def Path.lastStep? (path : Path) : Option (List Step × Step) :=
  match (path.steps.reverse.dropWhile (· == .stay)) with
  | last :: before => some (before.reverse, last)
  | [] => none

namespace FileTree

/-- Take steps, making each directory that is missing. -/
def makeDirectories (tree : FileTree) :
    Location → List Step → Option (FileTree × Location)
  | location, [] =>
      if tree.node? location = some .directory then
        some (tree, location)
      else
        none
  | location, .stay :: rest => tree.makeDirectories location rest
  | location, .up :: rest => tree.makeDirectories location.tail rest
  | _, .overlong :: _ => none
  | location, .enter name :: rest =>
      match tree.node? (name :: location) with
      | none =>
          (tree.put (name :: location) .directory).makeDirectories
            (name :: location) rest
      | some .directory => tree.makeDirectories (name :: location) rest
      | some (.link _) =>
          match tree.resolve mostLinks location [.enter name] with
          | .ok target => tree.makeDirectories target rest
          | .error _ => none
      | some _ => none

/-- The directory that is to hold the last name of a path, made when it is
missing, and that name. -/
def makeParent (tree : FileTree) (path : Path) :
    Option (FileTree × Location × EntryName) := do
  let (before, last) ← path.lastStep?
  let (tree, parent) ←
    tree.makeDirectories (startOf path tree.workingDirectory) before
  match last with
  | .enter name => some (tree, parent, name)
  | _ => none

/-- Where a file of this name is written: the end of the links that the name
leads to, also when nothing is there yet. -/
def writePlace (tree : FileTree) : Nat → Location → EntryName → Option Location
  | 0, _, _ => none
  | links + 1, parent, name =>
      match tree.node? (name :: parent) with
      | some (.link target) => do
          let (before, last) ← target.lastStep?
          let parent ←
            (tree.resolve mostLinks (startOf target parent) before).toOption
          match last with
          | .enter name => tree.writePlace links parent name
          | _ => none
      | some .directory => none
      | some .socket => none
      | _ =>
          if tree.node? parent = some .directory then
            some (name :: parent)
          else
            none

/-- Put a node where nothing is yet. -/
def create (tree : FileTree) (path : Path) (node : Node) : Option FileTree := do
  let (tree, parent, name) ← tree.makeParent path
  if (tree.node? (name :: parent)).isNone then
    some (tree.put (name :: parent) node)
  else
    none

/-- The tree after an edit that can be made. -/
def edit? (tree : FileTree) : Edit → Option FileTree
  | .file path content => do
      let (tree, parent, name) ← tree.makeParent path
      let place ← tree.writePlace (mostLinks + 1) parent name
      some (tree.put place (.file content))
  | .directory path => do
      let (tree, _) ←
        tree.makeDirectories (startOf path tree.workingDirectory) path.steps
      some tree
  | .link path target => tree.create path (.link target)
  | .socket path => tree.create path .socket
  | .remove path => do
      let (before, last) ← path.lastStep?
      let parent ←
        (tree.resolve mostLinks (startOf path tree.workingDirectory)
          before).toOption
      match last with
      | .enter name =>
          if (tree.node? (name :: parent)).isSome then
            some (tree.remove (name :: parent))
          else
            none
      | _ => none

/-- The tree after an edit. -/
def edit (tree : FileTree) (change : Edit) : FileTree :=
  (tree.edit? change).getD tree

/-- The tree after a list of edits. -/
def editAll (tree : FileTree) (changes : List Edit) : FileTree :=
  changes.foldl edit tree

end FileTree

end HeaderAudit
