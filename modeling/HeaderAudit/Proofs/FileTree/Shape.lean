import HeaderAudit.Proofs.FileTree.Leads

/-! Trees of one shape hold the same but for the bytes of files, in any order.
The outline of a tree also keeps the order. -/

namespace HeaderAudit.FileTree

/-- The trees agree at every location, up to the content of a file. -/
structure SameShape (left right : FileTree) : Prop where
  workingDirectory : left.workingDirectory = right.workingDirectory
  unreadable : left.unreadable = right.unreadable
  nodes :
    ∀ location,
      left.node? location = right.node? location ∨
        ∃ former latter,
          left.node? location = some (.file former) ∧
            right.node? location = some (.file latter)

namespace SameShape

variable {left right : FileTree}

theorem symm (same : left.SameShape right) : right.SameShape left where
  workingDirectory := same.workingDirectory.symm
  unreadable := same.unreadable.symm
  nodes location := by
    rcases same.nodes location with equal | ⟨former, latter, first, second⟩
    · exact Or.inl equal.symm
    · exact Or.inr ⟨latter, former, second, first⟩

theorem node?_of_not_file
    (same : left.SameShape right) {location : Location} {node : Node}
    (present : left.node? location = some node)
    (notFile : ∀ content, node ≠ .file content) :
    right.node? location = some node := by
  rcases same.nodes location with equal | ⟨former, _, first, _⟩
  · rw [← equal, present]
  · rw [present] at first
    exact absurd (Option.some.inj first) (notFile former)

theorem isSome_node?
    (same : left.SameShape right) (location : Location) :
    (left.node? location).isSome = (right.node? location).isSome := by
  rcases same.nodes location with equal | ⟨_, _, first, second⟩
  · rw [equal]
  · rw [first, second]
    rfl

theorem advance_eq
    (same : left.SameShape right)
    (redirect : Location → List Step → Except LookupError Location)
    (steps : List Step) :
    ∀ location,
      left.advance redirect location steps =
        right.advance redirect location steps := by
  induction steps with
  | nil =>
      intro location
      rfl
  | cons step rest inductionHypothesis =>
      intro location
      unfold advance
      rcases same.nodes location with equal | ⟨_, _, first, second⟩
      · rw [equal]
        cases right.node? location with
        | none => rfl
        | some node =>
            cases node with
            | file _ => rfl
            | socket => rfl
            | link _ => rfl
            | directory =>
                cases step with
                | stay => exact inductionHypothesis location
                | up => exact inductionHypothesis location.tail
                | overlong => rfl
                | enter name =>
                    have later := inductionHypothesis (name :: location)
                    rcases same.nodes (name :: location) with
                      entry | ⟨_, _, entryFirst, entrySecond⟩
                    · simp only [entry, later]
                    · simp only [entryFirst, entrySecond, later]
      · rw [first, second]

theorem resolve_eq (same : left.SameShape right) (links : Nat) :
    left.resolve links = right.resolve links := by
  funext location steps
  induction links generalizing location steps with
  | zero => exact same.advance_eq _ steps location
  | succ links inductionHypothesis =>
      rw [resolve, resolve, same.advance_eq]
      simp only [inductionHypothesis]

theorem locate_eq (same : left.SameShape right) (path : Path) :
    left.locate path = right.locate path := by
  simp only [locate, same.resolve_eq, same.workingDirectory]

theorem openDirectory_eq (same : left.SameShape right) (path : Path) :
    left.openDirectory path = right.openDirectory path := by
  simp only [openDirectory, same.locate_eq, same.unreadable]

/-- What a path leads to is the same, up to the content of a file. -/
theorem find_cases (same : left.SameShape right) (path : Path) :
    left.find path = right.find path ∨
      ∃ location former latter,
        left.find path = .ok (location, .file former) ∧
          right.find path = .ok (location, .file latter) := by
  unfold find
  rw [same.locate_eq]
  cases right.locate path with
  | error cause => exact Or.inl rfl
  | ok location =>
      rcases same.nodes location with equal | ⟨former, latter, first, second⟩
      · left
        simp only [equal]
      · right
        refine ⟨location, former, latter, ?_, ?_⟩
        · simp only [first]
        · simp only [second]

theorem isDirectory_of_isDirectory
    (same : left.SameShape right) {path : Path}
    (there : left.isDirectory path = true) :
    right.isDirectory path = true := by
  obtain ⟨location, found⟩ := isDirectory_iff.1 there
  rcases same.find_cases path with equal | ⟨_, _, _, first, _⟩
  · rw [equal] at found
    exact isDirectory_iff.2 ⟨location, found⟩
  · rw [first] at found
    cases found

theorem isDirectory_eq (same : left.SameShape right) (path : Path) :
    left.isDirectory path = right.isDirectory path :=
  Bool.eq_iff_iff.2
    ⟨same.isDirectory_of_isDirectory, same.symm.isDirectory_of_isDirectory⟩

theorem isFile_of_isFile
    (same : left.SameShape right) {path : Path}
    (there : left.isFile path = true) :
    right.isFile path = true := by
  obtain ⟨location, content, found⟩ := isFile_iff.1 there
  rcases same.find_cases path with equal | ⟨_, latter, _, _, second⟩
  · rw [equal] at found
    exact isFile_iff.2 ⟨location, content, found⟩
  · exact isFile_iff.2 ⟨_, _, second⟩

theorem isFile_eq (same : left.SameShape right) (path : Path) :
    left.isFile path = right.isFile path :=
  Bool.eq_iff_iff.2 ⟨same.isFile_of_isFile, same.symm.isFile_of_isFile⟩

/-- What a path reads is the same, up to the content of a file. -/
theorem read_cases (same : left.SameShape right) (path : Path) :
    left.read path = right.read path ∨
      ∃ former latter,
        left.read path = .ok former ∧ right.read path = .ok latter := by
  rcases same.find_cases path with
    equal | ⟨location, former, latter, first, second⟩
  · left
    simp only [read, equal, same.unreadable]
  · rw [read_of_find_file first, read_of_find_file second, same.unreadable]
    by_cases refused : location ∈ right.unreadable
    · simp [refused]
    · simp [refused]

end SameShape

end HeaderAudit.FileTree

namespace HeaderAudit

/-- The node without the bytes of a file. -/
def Node.outline : Node → Node
  | .file _ => .file []
  | node => node

/-- The node with other bytes, if it is a file. -/
def Node.withBytes (bytes : List UInt8) : Node → Node
  | .file _ => .file bytes
  | node => node

theorem Node.outline_withBytes (bytes : List UInt8) (node : Node) :
    (node.withBytes bytes).outline = node.outline := by
  cases node <;> rfl

theorem Node.eq_or_files_of_outline_eq
    {left right : Node} (same : left.outline = right.outline) :
    left = right ∨
      ∃ former latter, left = .file former ∧ right = .file latter := by
  cases left <;> cases right <;> simp_all [outline]

namespace FileTree

/-- The tree with the bytes of all files taken out. -/
def outline (tree : FileTree) : FileTree where
  entries := tree.entries.map fun entry => (entry.1, entry.2.outline)
  workingDirectory := tree.workingDirectory
  locationsNodup := by
    rw [List.map_map]
    exact tree.locationsNodup
  unreadable := tree.unreadable

theorem node?_outline (tree : FileTree) (location : Location) :
    tree.outline.node? location =
      (tree.node? location).map Node.outline := by
  cases location with
  | nil => rfl
  | cons name parent =>
      simp only [node?, outline, List.find?_map, Option.map_map]
      rfl

theorem listing_outline (tree : FileTree) (directory : Location) :
    tree.outline.listing directory = tree.listing directory := by
  simp only [listing, outline, List.filterMap_map]
  rfl

variable {left right : FileTree}

theorem sameShape_of_outline_eq (same : left.outline = right.outline) :
    left.SameShape right where
  workingDirectory := by
    change left.outline.workingDirectory = right.outline.workingDirectory
    rw [same]
  unreadable := by
    change left.outline.unreadable = right.outline.unreadable
    rw [same]
  nodes location := by
    have sameOutline :
        (left.node? location).map Node.outline =
          (right.node? location).map Node.outline := by
      rw [← node?_outline, ← node?_outline, same]
    cases leftNode : left.node? location with
    | none =>
        rw [leftNode, Option.map_none, eq_comm, Option.map_eq_none_iff]
          at sameOutline
        exact Or.inl sameOutline.symm
    | some former =>
        rw [leftNode, Option.map_some, eq_comm, Option.map_eq_some_iff]
          at sameOutline
        obtain ⟨latter, rightNode, nodes⟩ := sameOutline
        rw [rightNode]
        rcases Node.eq_or_files_of_outline_eq nodes.symm with
          rfl | ⟨first, second, rfl, rfl⟩
        · exact Or.inl rfl
        · exact Or.inr ⟨first, second, rfl, rfl⟩

theorem listing_eq_of_outline_eq
    (same : left.outline = right.outline) (directory : Location) :
    left.listing directory = right.listing directory := by
  rw [← listing_outline, same, listing_outline]

/-- The tree with other bytes in the file at a location, if there is one. -/
def rewrite
    (tree : FileTree) (location : Location) (bytes : List UInt8) :
    FileTree where
  entries := tree.entries.map fun entry =>
    (entry.1,
      if entry.1 = location then entry.2.withBytes bytes else entry.2)
  workingDirectory := tree.workingDirectory
  locationsNodup := by
    rw [List.map_map]
    exact tree.locationsNodup
  unreadable := tree.unreadable

theorem outline_rewrite
    (tree : FileTree) (location : Location) (bytes : List UInt8) :
    (tree.rewrite location bytes).outline = tree.outline := by
  simp only [outline, rewrite, List.map_map, mk.injEq, and_true]
  apply List.map_congr_left
  intro entry _
  simp only [Function.comp_apply]
  split
  · rw [Node.outline_withBytes]
  · rfl

theorem node?_rewrite_of_ne
    (tree : FileTree) {location tested : Location}
    (different : tested ≠ location) (bytes : List UInt8) :
    (tree.rewrite location bytes).node? tested = tree.node? tested := by
  cases tested with
  | nil => rfl
  | cons name parent =>
      simp only [node?, rewrite, List.find?_map, Option.map_map]
      have sameSearch :
          (isAt (name :: parent) ∘ fun entry : Location × Node =>
              (entry.1,
                if entry.1 = location then
                  entry.2.withBytes bytes
                else
                  entry.2)) =
            isAt (name :: parent) :=
        rfl
      rw [sameSearch]
      cases found : tree.entries.find? (isAt (name :: parent)) with
      | none => rfl
      | some entry =>
          have located : entry.1 ≠ location := by
            rw [isAt_iff.1 (List.find?_some found)]
            exact different
          simp [located]

/-- A path that does not lead to the file reads what it read before. -/
theorem read_rewrite_of_ne
    (tree : FileTree) {location : Location} {path : Path}
    (elsewhere : tree.locate path ≠ .ok location) (bytes : List UInt8) :
    (tree.rewrite location bytes).read path = tree.read path := by
  have sameShape :=
    sameShape_of_outline_eq (tree.outline_rewrite location bytes)
  unfold read find
  rw [sameShape.locate_eq, sameShape.unreadable]
  cases located : tree.locate path with
  | error cause => rfl
  | ok reached =>
      have different : reached ≠ location := by
        intro same
        rw [same] at located
        exact elsewhere located
      simp only [tree.node?_rewrite_of_ne different]

end FileTree

end HeaderAudit
