import HeaderAudit.Path.Basic

/-! A location is the list of names that lead to a place, the innermost name
first. There are no hard links, so it also identifies what is there. The order
of the entries is the order in which directories list their names. -/

namespace HeaderAudit

/-- The greatest number of bytes in a name. -/
def longestName : Nat := 255

/-- A name that a directory can hold. -/
structure EntryName where
  bytes : List UInt8
  notEmpty : bytes ≠ []
  notDots : bytes ≠ [dot] ∧ bytes ≠ [dot, dot]
  noSlash : slash ∉ bytes
  noNul : 0 ∉ bytes
  short : bytes.length ≤ longestName
  deriving DecidableEq

/-- The name with these bytes, when they can be one. -/
def EntryName.ofBytes? (bytes : List UInt8) : Option EntryName :=
  if valid : bytes ≠ [] ∧ (bytes ≠ [dot] ∧ bytes ≠ [dot, dot]) ∧
      slash ∉ bytes ∧ 0 ∉ bytes ∧ bytes.length ≤ longestName then
    some
      ⟨bytes, valid.1, valid.2.1, valid.2.2.1, valid.2.2.2.1,
        valid.2.2.2.2⟩
  else
    none

/-- The names that lead to a place in a tree, the innermost one first. -/
abbrev Location := List EntryName

/-- What is at a location. -/
inductive Node where
  | directory
  | file (content : List UInt8)
  | socket
  | link (target : Path)
  deriving DecidableEq, Repr

/-- A tree of directories and the directory that relative paths start from.
At an unreadable location neither the content of a file nor the names in a
directory can be had; paths lead there and through it all the same. -/
structure FileTree where
  entries : List (Location × Node)
  workingDirectory : Location
  locationsNodup : (entries.map Prod.fst).Nodup
  unreadable : List Location := []

/-- An entry is the one at a location.  Depths are compared first, because
deep locations can agree in many names. -/
def isAt (location : Location) (entry : Location × Node) : Bool :=
  entry.1.length == location.length && entry.1 == location

@[simp]
theorem isAt_iff {location : Location} {entry : Location × Node} :
    isAt location entry = true ↔ entry.1 = location := by
  constructor
  · intro found
    simpa using (Bool.and_eq_true_iff.1 found).2
  · rintro rfl
    simp [isAt]

namespace FileTree

/-- The tree that holds nothing, seen from its top. -/
def empty : FileTree where
  entries := []
  workingDirectory := []
  locationsNodup := List.nodup_nil

/-- The node at a location.  The top is always a directory. -/
def node? (tree : FileTree) : Location → Option Node
  | [] => some .directory
  | location => (tree.entries.find? (isAt location)).map Prod.snd

/-- The names that a directory lists. -/
def listing (tree : FileTree) (directory : Location) : List EntryName :=
  tree.entries.filterMap fun entry =>
    match entry.1 with
    | name :: parent => if parent = directory then some name else none
    | [] => none

/-- The entries that satisfy a test. -/
def filter (tree : FileTree) (keep : Location × Node → Bool) : FileTree where
  entries := tree.entries.filter keep
  workingDirectory := tree.workingDirectory
  locationsNodup :=
    List.Nodup.sublist (List.Sublist.map _ List.filter_sublist)
      tree.locationsNodup
  unreadable := tree.unreadable

/-- The tree with this node at a location, in place of what was there. -/
def put (tree : FileTree) (location : Location) (node : Node) : FileTree where
  entries :=
    (tree.filter fun entry => entry.1 != location).entries ++
      [(location, node)]
  workingDirectory := tree.workingDirectory
  locationsNodup := by
    rw [List.map_append]
    refine List.nodup_append.2
      ⟨(tree.filter _).locationsNodup, by simp, ?_⟩
    intro present presentMember added addedMember
    obtain ⟨entry, entryMember, rfl⟩ := List.mem_map.1 presentMember
    have different := (List.mem_filter.1 entryMember).2
    simp only [List.map_cons, List.map_nil, List.mem_singleton] at addedMember
    simpa [addedMember] using different
  unreadable := tree.unreadable

/-- The tree without a location and everything below it. -/
def remove (tree : FileTree) (location : Location) : FileTree :=
  { tree.filter fun entry => !location.isSuffixOf entry.1 with
    unreadable :=
      tree.unreadable.filter fun place => !location.isSuffixOf place }

end FileTree

end HeaderAudit
