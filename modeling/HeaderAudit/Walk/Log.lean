import HeaderAudit.Log
import HeaderAudit.Walk

/-! A walk warns of each special file that it passes over, in the order in
which it meets them, until it ends or cannot go on. -/

namespace HeaderAudit.FileTree

/-- An entry is a special file.  A link is one when it leads to one and links
are followed. -/
def isSpecial
    (tree : FileTree) (followLinks : Bool) (path : Path)
    (location : Location) : Bool :=
  match tree.node? location with
  | some .socket => true
  | some (.link _) =>
      match tree.find path with
      | .ok (_, .socket) => followLinks
      | _ => false
  | _ => false

/-- What is logged at one entry of a directory and below it. -/
def entryLog
    (tree : FileTree) (followLinks : Bool) (ancestors : List Ancestor)
    (below : Ancestor → LogPart)
    (directory : Path) (here : Location) (name : EntryName) : LogPart :=
  let path := directory.join ⟨name.bytes⟩
  match tree.descent followLinks ancestors path (name :: here) with
  | .error _ => ⟨[], false⟩
  | .ok none =>
      if !tree.isFile path && tree.isSpecial followLinks path (name :: here) then
        ⟨[.notRegular path], true⟩
      else
        ⟨[], true⟩
  | .ok (some entered) => below entered

/-- What is logged below the innermost of the given directories, down to a
depth below it. -/
def logBelow (tree : FileTree) (followLinks : Bool) :
    Nat → Ancestor → List Ancestor → LogPart
  | 0, _, _ => ⟨[], true⟩
  | depth + 1, directory, outer =>
      match tree.openDirectory directory.path with
      | .error _ => ⟨[], false⟩
      | .ok here =>
          LogPart.sequence <|
            (tree.listing here).map
              (tree.entryLog followLinks (directory :: outer)
                (fun entered =>
                  tree.logBelow followLinks depth entered
                    (directory :: outer))
                directory.path here)

/-- What a walk of a directory logs. -/
def walkLog
    (tree : FileTree) (followLinks : Bool) (maxDepth : Nat)
    (directory : Path) : LogPart :=
  match tree.locate directory with
  | .error _ => ⟨[], false⟩
  | .ok here => tree.logBelow followLinks maxDepth ⟨directory, here⟩ []

end HeaderAudit.FileTree
