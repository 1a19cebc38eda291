import HeaderAudit.Proofs.Audit.Unchanged
import HeaderAudit.Proofs.FileTree.LinkFree

/-! Without links a candidate leads to the place that its names say, so
different candidates are different files and none is read twice. -/

namespace HeaderAudit

/-- The path is relative and no component of it goes up. -/
def Path.GoesDown (path : Path) : Prop :=
  path.isAbsolute = false ∧ .up ∉ path.components

instance (path : Path) : Decidable path.GoesDown :=
  inferInstanceAs (Decidable (_ ∧ _))

/-- Everything that the settings watch or name is below the root. -/
structure Settings.GoesDown (settings : Settings) : Prop where
  dirs : ∀ directory ∈ settings.includeDirs, directory.GoesDown
  files : ∀ file ∈ settings.includeFiles, file.GoesDown

namespace Path.GoesDown

variable {path : Path}

theorem up_notMem_moves (down : path.GoesDown) : .up ∉ path.moves :=
  fun member => down.2 (List.mem_of_mem_filter member)

theorem normalForm (down : path.GoesDown) : path.normalForm.GoesDown := by
  refine ⟨path.isAbsolute_normalForm.trans down.1, ?_⟩
  rw [components_normalForm]
  exact down.up_notMem_moves

theorem below
    (down : path.GoesDown) (names : List EntryName) :
    (path.below names).GoesDown := by
  have relative : (path.below names).isAbsolute = false := by
    rw [isAbsolute_below, down.1]
  refine ⟨relative, fun member => ?_⟩
  have moved : .up ∈ (path.below names).moves :=
    List.mem_filter.2 ⟨member, by decide⟩
  rw [moves_below, List.mem_append] at moved
  rcases moved with above | named
  · exact down.up_notMem_moves above
  · obtain ⟨name, _, impossible⟩ := List.mem_map.1 named
    cases impossible

end Path.GoesDown

namespace FileTree

variable
  {tree : FileTree} {settings : Settings} {candidates : List Path}
  {path : Path}

theorem Yields.goesDown
    {source : Path} (rootThere : tree.isDirectory settings.root = true)
    (down : settings.GoesDown) (yields : tree.Yields settings source path) :
    path.GoesDown := by
  obtain ⟨base, member, names, rfl⟩ :=
    yields.exists_below rootThere fun directory listed =>
      (down.dirs directory listed).1
  have baseDown : base.GoesDown := by
    rcases List.mem_append.1 member with watched | named
    · exact down.dirs base watched
    · exact down.files base named
  exact (baseDown.below names).normalForm

/-- A candidate spells at least one name and leads to a file. -/
theorem exists_names_of_candidate
    (free : tree.LinkFree) (down : settings.GoesDown)
    (found : tree.candidates settings = .ok candidates)
    (member : path ∈ candidates) :
    (∃ names, names ≠ [] ∧ path = Path.ofNames names) ∧
      ∃ location content,
        tree.find (settings.root.join path) =
          .ok (location, .file content) := by
  have rootThere := rootThere_of_candidates found
  obtain ⟨rootEnd, rootFound⟩ := isDirectory_iff.1 rootThere
  obtain ⟨rootLocated, rootNode⟩ := find_eq_ok_iff.1 rootFound
  obtain ⟨source, yields⟩ := exists_yields_of_candidate found member
  have pathDown := yields.goesDown rootThere down
  have short :=
    short_of_candidate found
      (Or.inr fun directory listed => (down.dirs directory listed).1) member
  obtain ⟨location, content, _, joinFound⟩ :=
    yields.find_join_eq rootThere short
  obtain ⟨joinLocated, node⟩ := find_eq_ok_iff.1 joinFound
  obtain ⟨names, spelled⟩ :=
    exists_names_of_locate pathDown.1 pathDown.up_notMem_moves joinLocated
  rw [yields.normalForm_eq] at spelled
  subst spelled
  refine ⟨⟨names, ?_, rfl⟩, location, content, joinFound⟩
  -- Without a name the candidate would lead to the root.
  rintro rfl
  have sameEnd : location = rootEnd := by
    rw [free.locate_eq joinLocated, free.locate_eq rootLocated,
      Path.destination_join_ofNames, List.reverse_nil, List.nil_append]
  rw [sameEnd, rootNode] at node
  cases node

/-- Names below one root are told apart by where they lead, even in different
trees without links that are seen from the same directory. -/
theorem names_eq_of_locate
    {other : FileTree} {root : Path} {names otherNames : List EntryName}
    {location : Location}
    (free : tree.LinkFree) (otherFree : other.LinkFree)
    (sameDirectory : tree.workingDirectory = other.workingDirectory)
    (located :
      tree.locate (root.join (Path.ofNames names)) = .ok location)
    (otherLocated :
      other.locate (root.join (Path.ofNames otherNames)) = .ok location) :
    names = otherNames := by
  have sameEnd :
      names.reverse ++ root.destination tree.workingDirectory =
        otherNames.reverse ++ root.destination tree.workingDirectory := by
    rw [← Path.destination_join_ofNames, ← Path.destination_join_ofNames,
      ← free.locate_eq located, sameDirectory,
      ← otherFree.locate_eq otherLocated]
  exact List.reverse_injective (List.append_cancel_right sameEnd)

end FileTree

/-- Whatever of the paths the watcher was told of, there are no links, and the
working directory is the one of the beginning. -/
def Watcher.MakesNoLinks
    {state : Type} (watcher : Watcher state) (world : state × FileTree)
    (paths : List Path) : Prop :=
  ∀ told, told <+: paths →
    (watcher.tell world told).2.LinkFree ∧
      (watcher.tell world told).2.workingDirectory =
        world.2.workingDirectory

theorem Watcher.KeepsTree.makesNoLinks
    {state : Type} {watcher : Watcher state} {world : state × FileTree}
    (quiet : watcher.KeepsTree) (free : world.2.LinkFree)
    (paths : List Path) :
    watcher.MakesNoLinks world paths := by
  intro told _
  rw [quiet.tell_eq]
  exact ⟨free, rfl⟩

/-- In a tree without links every candidate spells names with single slashes
and leads to a file, and different candidates lead to different files.  The
watcher is told of them in increasing order, and as long as it makes no links,
what is read at one time is not where anything else is read. -/
theorem audit_of_linkFree
    {settings : Settings} {tree : FileTree} {candidates : List Path}
    (free : tree.LinkFree) (down : settings.GoesDown)
    (found : tree.candidates settings = .ok candidates) :
    (∀ path ∈ candidates,
      (∃ names, names ≠ [] ∧ path = Path.ofNames names) ∧
        ∃ location content,
          tree.find (settings.root.join path) =
            .ok (location, .file content)) ∧
    (∀ first ∈ candidates, ∀ second ∈ candidates, ∀ location,
      tree.locate (settings.root.join first) = .ok location →
        tree.locate (settings.root.join second) = .ok location →
          first = second) ∧
    ∀ {state : Type} (watcher : Watcher state) (watched : state),
      let told := toldPaths settings watcher watched tree
      let placeRead := fun before path =>
        (watcher.tell (watched, tree) (before ++ [path])).2.locate
          (settings.root.join path)
      OrderedSet.Increasing told ∧
        (watcher.MakesNoLinks (watched, tree) told →
          ∀ before first between second after,
            told = before ++ first :: between ++ second :: after →
              ∀ location, placeRead before first = .ok location →
                placeRead (before ++ first :: between) second ≠
                  .ok location) := by
  have spelled (path : Path) (member : path ∈ candidates) :=
    FileTree.exists_names_of_candidate free down found member
  refine ⟨spelled, ?_, ?_⟩
  · intro first firstMember second secondMember location firstEnd secondEnd
    obtain ⟨⟨names, _, rfl⟩, _⟩ := spelled first firstMember
    obtain ⟨⟨otherNames, _, rfl⟩, _⟩ := spelled second secondMember
    rw [FileTree.names_eq_of_locate free free rfl firstEnd secondEnd]
  · intro state watcher watched told placeRead
    obtain ⟨_, _, _, examines, _⟩ := exists_examines watcher watched found
    have begins : told <+: candidates := examines.told_begins
    have increasing : OrderedSet.Increasing told :=
      (FileTree.increasing_candidates found).sublist begins.sublist
    refine ⟨increasing, ?_⟩
    intro noLinks before first between second after split location firstRead
      secondRead
    have firstMember : first ∈ told := by
      simp [split]
    have secondMember : second ∈ told := by
      simp [split]
    have firstTold : before ++ [first] <+: told :=
      ⟨between ++ second :: after, by simp [split]⟩
    have secondTold : before ++ first :: between ++ [second] <+: told :=
      ⟨after, by simp [split]⟩
    obtain ⟨firstFree, firstDirectory⟩ := noLinks _ firstTold
    obtain ⟨secondFree, secondDirectory⟩ := noLinks _ secondTold
    obtain ⟨⟨names, _, rfl⟩, _⟩ := spelled first (begins.subset firstMember)
    obtain ⟨⟨otherNames, _, rfl⟩, _⟩ :=
      spelled second (begins.subset secondMember)
    have sameNames :=
      FileTree.names_eq_of_locate firstFree secondFree
        (firstDirectory.trans secondDirectory.symm) firstRead secondRead
    have distinct := increasing.nodup
    rw [split, sameNames] at distinct
    simp [List.nodup_append] at distinct

/-- A file in a directory and one in a directory below it. -/
def layeredTree : FileTree :=
  FileTree.empty.editAll
    [.file (Path.ofString "lib/a.cpp") [],
      .file (Path.ofString "lib/in/b.cpp") []]

/-- Settings in which every file is found three times, each time in another
way. -/
def layeredSettings : Settings where
  root := Path.ofString "."
  includeDirs := ["./.", "lib", "lib//in/."].map Path.ofString
  includeFiles := ["lib/./a.cpp", "./lib/a.cpp"].map Path.ofString
  exclude := []
  followLinks := false
  maxDepth := 3

/-- With a watcher that does nothing, no two reads are of one file. -/
theorem layeredTree_audit_of_linkFree :
    layeredTree.LinkFree ∧ layeredSettings.GoesDown ∧
      layeredTree.candidates layeredSettings =
        .ok [Path.ofString "lib/a.cpp", Path.ofString "lib/in/b.cpp"] ∧
      let told :=
        toldPaths layeredSettings (fun world _ => world) () layeredTree
      OrderedSet.Increasing told ∧
        ∀ before first between second after,
          told = before ++ first :: between ++ second :: after →
            ∀ location,
              layeredTree.locate (layeredSettings.root.join first) =
                  .ok location →
                layeredTree.locate (layeredSettings.root.join second) ≠
                  .ok location := by
  have free : layeredTree.LinkFree := by
    decide +kernel
  have down : layeredSettings.GoesDown := ⟨by decide, by decide⟩
  have found :
      layeredTree.candidates layeredSettings =
        .ok [Path.ofString "lib/a.cpp", Path.ofString "lib/in/b.cpp"] := by
    decide +kernel
  have quiet : Watcher.KeepsTree (fun world _ => world : Watcher Unit) :=
    fun _ _ => rfl
  obtain ⟨_, _, runs⟩ := audit_of_linkFree free down found
  obtain ⟨increasing, apart⟩ := runs _ ()
  refine ⟨free, down, found, increasing, ?_⟩
  have placesApart := apart (quiet.makesNoLinks free _)
  simp only [quiet.tell_eq] at placesApart
  exact placesApart

end HeaderAudit
