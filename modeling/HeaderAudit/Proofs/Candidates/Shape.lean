import HeaderAudit.Proofs.Candidates
import HeaderAudit.Proofs.FileTree.Shape

/-! Walks look at no content, and the order of listing does not show in their
results; it can only show in which of several faults is met first. -/

namespace HeaderAudit.FileTree.SameShape

variable {left right : FileTree} {followLinks : Bool}

theorem descent_eq
    (same : left.SameShape right) (ancestors : List Ancestor) (path : Path)
    (location : Location) :
    left.descent followLinks ancestors path location =
      right.descent followLinks ancestors path location := by
  unfold descent
  rcases same.nodes location with equal | ⟨_, _, first, second⟩
  · rw [equal]
    rcases same.find_cases path with found | ⟨_, _, _, first, second⟩
    · rw [found]
    · rw [first, second]
  · rw [first, second]

theorem exists_entryFiles
    (same : left.SameShape right) {ancestors : List Ancestor}
    {below otherBelow : Ancestor → Except WalkError (List Path)}
    (belowToo :
      ∀ entered files, below entered = .ok files →
        ∃ found, otherBelow entered = .ok found)
    {directory : Path} {here : Location} {name : EntryName}
    {files : List Path}
    (walked :
      left.entryFiles followLinks ancestors below directory here name =
        .ok files) :
    ∃ found,
      right.entryFiles followLinks ancestors otherBelow directory here name =
        .ok found := by
  unfold entryFiles at walked ⊢
  simp only [same.descent_eq] at walked
  cases descended :
      right.descent followLinks ancestors (directory.join ⟨name.bytes⟩)
        (name :: here) with
  | error fault =>
      rw [descended] at walked
      cases walked
  | ok descent =>
      simp only [descended] at walked ⊢
      cases descent with
      | none => exact ⟨_, rfl⟩
      | some entered =>
          dsimp only at walked ⊢
          cases ran : below entered with
          | error fault =>
              rw [ran] at walked
              cases walked
          | ok inner =>
              obtain ⟨found, foundBelow⟩ := belowToo entered inner ran
              rw [foundBelow]
              exact ⟨_, rfl⟩

theorem exists_filesBelow (same : left.SameShape right) (depth : Nat) :
    ∀ {directory : Ancestor} {outer : List Ancestor} {files : List Path},
      left.filesBelow followLinks depth directory outer = .ok files →
        ∃ found,
          right.filesBelow followLinks depth directory outer = .ok found := by
  induction depth with
  | zero =>
      intro directory outer files _
      exact ⟨[], rfl⟩
  | succ depth inductionHypothesis =>
      intro directory outer files walked
      unfold filesBelow at walked ⊢
      rw [same.openDirectory_eq] at walked
      cases opened : right.openDirectory directory.path with
      | error cause =>
          rw [opened] at walked
          cases walked
      | ok here =>
          rw [opened] at walked
          obtain ⟨parts, ran, _⟩ := map_eq_ok_iff.1 walked
          obtain ⟨found, ranRight⟩ :
              ∃ found,
                (right.listing here).mapM
                    (right.entryFiles followLinks (directory :: outer)
                      (fun entered =>
                        right.filesBelow followLinks depth entered
                          (directory :: outer))
                      directory.path here) =
                  .ok found := by
            apply exists_mapM_eq_ok
            intro name listed
            have listedLeft : name ∈ left.listing here := by
              rw [mem_listing_iff, same.isSome_node?, ← mem_listing_iff]
              exact listed
            obtain ⟨part, _, partRan⟩ :=
              exists_ok_of_mapM_eq_ok ran name listedLeft
            exact
              same.exists_entryFiles
                (fun _ _ => inductionHypothesis) partRan
          exact ⟨_, map_eq_ok_iff.2 ⟨found, ranRight, rfl⟩⟩

theorem exists_walk
    (same : left.SameShape right) {maxDepth : Nat} {start : Path}
    {files : List Path}
    (walked : left.walk followLinks maxDepth start = .ok files) :
    ∃ found, right.walk followLinks maxDepth start = .ok found := by
  unfold walk at walked ⊢
  rw [same.locate_eq] at walked
  cases located : right.locate start with
  | error cause =>
      rw [located] at walked
      cases walked
  | ok here =>
      rw [located] at walked
      exact same.exists_filesBelow maxDepth walked

theorem enters
    (same : left.SameShape right) {directory : Path} {name : EntryName}
    (entered : left.Enters followLinks directory name) :
    right.Enters followLinks directory name := by
  have entryNode (node : Node) (notFile : ∀ content, node ≠ .file content)
      (present : left.entryNode? directory name = some node) :
      right.entryNode? directory name = some node := by
    unfold entryNode? at present ⊢
    rw [same.locate_eq] at present
    cases located : right.locate directory with
    | error cause =>
        rw [located] at present
        cases present
    | ok here =>
        rw [located] at present
        exact same.node?_of_not_file present notFile
  rcases entered with direct | ⟨follows, ⟨target, link⟩, there⟩
  · exact Or.inl (entryNode _ nofun direct)
  · refine Or.inr ⟨follows, ⟨target, entryNode _ nofun link⟩, ?_⟩
    rw [← same.isDirectory_eq]
    exact there

theorem discovers
    (same : left.SameShape right) {maxDepth : Nat} {start : Path}
    {names : List EntryName}
    (discovered : left.Discovers followLinks maxDepth start names) :
    right.Discovers followLinks maxDepth start names where
  notEmpty := discovered.notEmpty
  shallow := discovered.shallow
  entered outer name inner split notLast :=
    same.enters (discovered.entered outer name inner split notLast)
  file := by
    rw [← same.isFile_eq]
    exact discovered.file

variable {settings : Settings}

theorem exists_watchedFiles
    (same : left.SameShape right) {directory : Path} {files : List Path}
    (ran : left.watchedFiles settings directory = .ok files) :
    ∃ found, right.watchedFiles settings directory = .ok found := by
  rcases watchedFiles_eq_ok_iff.1 ran with
    ⟨there, walkedFiles, walked, _⟩ | ⟨missing, _⟩
  · obtain ⟨found, walkedRight⟩ := same.exists_walk walked
    rw [same.isDirectory_eq] at there
    exact
      ⟨_, watchedFiles_eq_ok_iff.2 (Or.inl ⟨there, found, walkedRight, rfl⟩)⟩
  · rw [same.isDirectory_eq] at missing
    exact ⟨[], watchedFiles_eq_ok_iff.2 (Or.inr ⟨missing, rfl⟩)⟩

theorem yields
    (same : left.SameShape right) {source path : Path}
    (yielded : left.Yields settings source path) :
    right.Yields settings source path := by
  cases yielded with
  | @walked directory _ files member there walked sourceMember =>
      obtain ⟨found, walkedRight⟩ := same.exists_walk walked
      obtain ⟨names, discovered, spelled⟩ :=
        (mem_walk_iff walked source).1 sourceMember
      have sourceFound :=
        (mem_walk_iff walkedRight source).2
          ⟨names, same.discovers discovered, spelled⟩
      rw [same.isDirectory_eq] at there
      exact .walked member there walkedRight sourceFound
  | named member there =>
      rw [same.isFile_eq] at there
      exact .named member there

theorem candidates_eq_ok
    (same : left.SameShape right) {candidates : List Path}
    (found : left.candidates settings = .ok candidates) :
    right.candidates settings = .ok candidates := by
  obtain ⟨rootThere, read, walks⟩ := exists_candidates_iff.1 ⟨_, found⟩
  obtain ⟨candidatesRight, foundRight⟩ :
      ∃ found, right.candidates settings = .ok found := by
    rw [same.isDirectory_eq] at rootThere
    refine
      exists_candidates_iff.2 ⟨rootThere, read, fun directory member => ?_⟩
    obtain ⟨files, ran⟩ := walks directory member
    exact same.exists_watchedFiles ran
  have sameYields (path : Path) :
      (∃ source, left.Yields settings source path) ↔
        ∃ source, right.Yields settings source path :=
    exists_congr fun _ => ⟨same.yields, same.symm.yields⟩
  rw [foundRight, candidates_eq_of_yields rfl sameYields found foundRight]

theorem filesBelow_eq
    (same : left.SameShape right)
    (sameOrder : ∀ directory, left.listing directory = right.listing directory)
    (depth : Nat) :
    ∀ directory outer,
      left.filesBelow followLinks depth directory outer =
        right.filesBelow followLinks depth directory outer := by
  induction depth with
  | zero =>
      intro directory outer
      rfl
  | succ depth inductionHypothesis =>
      intro directory outer
      unfold filesBelow
      rw [same.openDirectory_eq]
      cases right.openDirectory directory.path with
      | error cause => rfl
      | ok here =>
          simp only [sameOrder here]
          congr 1
          apply mapM_congr
          intro name _
          simp only [entryFiles, same.descent_eq, same.isFile_eq,
            inductionHypothesis]

theorem walk_eq
    (same : left.SameShape right)
    (sameOrder : ∀ directory, left.listing directory = right.listing directory)
    (maxDepth : Nat) (start : Path) :
    left.walk followLinks maxDepth start =
      right.walk followLinks maxDepth start := by
  simp only [walk, same.locate_eq, same.filesBelow_eq sameOrder]

theorem candidates_eq
    (same : left.SameShape right)
    (sameOrder : ∀ directory, left.listing directory = right.listing directory)
    (settings : Settings) :
    left.candidates settings = right.candidates settings := by
  have sameWatched (directory : Path) :
      left.watchedFiles settings directory =
        right.watchedFiles settings directory := by
    simp only [watchedFiles, same.isDirectory_eq, same.walk_eq sameOrder]
  simp only [FileTree.candidates, namedFiles, same.isDirectory_eq,
    same.isFile_eq, funext sameWatched]

end HeaderAudit.FileTree.SameShape
