import HeaderAudit.Proofs.Candidates

/-! The candidates are what the directories and the files yield, each on its
own. -/

namespace HeaderAudit

/-- The same settings with other watched directories and named files. -/
def Settings.including
    (settings : Settings) (directories files : List Path) : Settings :=
  { settings with includeDirs := directories, includeFiles := files }

section Fields

variable {settings : Settings} {directories files : List Path}

@[simp] theorem Settings.including_root :
    (settings.including directories files).root = settings.root :=
  rfl

@[simp] theorem Settings.including_includeDirs :
    (settings.including directories files).includeDirs = directories :=
  rfl

@[simp] theorem Settings.including_exclude :
    (settings.including directories files).exclude = settings.exclude :=
  rfl

/-- What a directory gives does not depend on the others. -/
@[simp] theorem FileTree.watchedFiles_including (tree : FileTree) :
    tree.watchedFiles (settings.including directories files) =
      tree.watchedFiles settings :=
  rfl

end Fields

namespace FileTree

variable {tree : FileTree} {settings : Settings}

section Lists

variable {directories moreDirectories files moreFiles : List Path}

theorem Yields.mono
    {source path : Path}
    (directoriesKept : directories ⊆ moreDirectories)
    (filesKept : files ⊆ moreFiles)
    (yields :
      tree.Yields (settings.including directories files) source path) :
    tree.Yields (settings.including moreDirectories moreFiles) source
      path := by
  cases yields with
  | walked member there walked sourceMember =>
      exact .walked (directoriesKept member) there walked sourceMember
  | named member there => exact .named (filesKept member) there

theorem yields_append_iff {source path : Path} :
    tree.Yields
        (settings.including (directories ++ moreDirectories)
          (files ++ moreFiles)) source path ↔
      tree.Yields (settings.including directories files) source path ∨
        tree.Yields (settings.including moreDirectories moreFiles) source
          path := by
  constructor
  · intro yields
    cases yields with
    | walked member there walked sourceMember =>
        rcases List.mem_append.1 member with first | second
        · exact Or.inl (.walked first there walked sourceMember)
        · exact Or.inr (.walked second there walked sourceMember)
    | named member there =>
        rcases List.mem_append.1 member with first | second
        · exact Or.inl (.named first there)
        · exact Or.inr (.named second there)
  · intro either
    rcases either with first | second
    · exact
        first.mono (List.subset_append_left _ _)
          (List.subset_append_left _ _)
    · exact
        second.mono (List.subset_append_right _ _)
          (List.subset_append_right _ _)

theorem exists_candidates_including_append_iff :
    (∃ candidates,
        tree.candidates
            (settings.including (directories ++ moreDirectories)
              (files ++ moreFiles)) = .ok candidates) ↔
      (∃ candidates,
          tree.candidates (settings.including directories files) =
            .ok candidates) ∧
        ∃ candidates,
          tree.candidates (settings.including moreDirectories moreFiles) =
            .ok candidates := by
  simp only [exists_candidates_iff, Settings.including_root,
    Settings.including_includeDirs, Settings.including_exclude,
    watchedFiles_including, List.forall_mem_append]
  tauto

theorem mem_candidates_including_append_iff
    {whole candidates moreCandidates : List Path}
    (found :
      tree.candidates
          (settings.including (directories ++ moreDirectories)
            (files ++ moreFiles)) = .ok whole)
    (firstFound :
      tree.candidates (settings.including directories files) =
        .ok candidates)
    (secondFound :
      tree.candidates (settings.including moreDirectories moreFiles) =
        .ok moreCandidates)
    (path : Path) :
    path ∈ whole ↔ path ∈ candidates ∨ path ∈ moreCandidates := by
  rw [mem_candidates_iff_yields found, mem_candidates_iff_yields firstFound,
    mem_candidates_iff_yields secondFound]
  simp only [Settings.including_exclude, yields_append_iff, exists_or,
    and_or_left]

/-- The walk of one of the directories finds the file, be it spelled
otherwise. -/
def FoundByWalk
    (tree : FileTree) (settings : Settings) (directories : List Path)
    (file : Path) : Prop :=
  ∃ directory ∈ directories, ∃ walked,
    tree.watchedFiles settings directory = .ok walked ∧
      file.normalForm ∈ walked

theorem FoundByWalk.mono
    {file : Path} (kept : directories ⊆ moreDirectories)
    (found : tree.FoundByWalk settings directories file) :
    tree.FoundByWalk settings moreDirectories file := by
  obtain ⟨directory, member, walked, ran, listed⟩ := found
  exact ⟨directory, kept member, walked, ran, listed⟩

theorem exists_yields_including
    {source path : Path} (directoriesKept : directories ⊆ moreDirectories)
    (covered :
      ∀ file ∈ files,
        file ∈ moreFiles ∨ tree.FoundByWalk settings moreDirectories file)
    (yields :
      tree.Yields (settings.including directories files) source path) :
    ∃ source,
      tree.Yields (settings.including moreDirectories moreFiles) source
        path := by
  cases yields with
  | walked member there walked sourceMember =>
      exact ⟨_, .walked (directoriesKept member) there walked sourceMember⟩
  | named member there =>
      rcases covered _ member with kept | found
      · exact ⟨_, .named kept there⟩
      · obtain ⟨directory, directoryMember, _, ran, listed⟩ := found
        exact exists_yields_of_mem_watchedFiles directoryMember ran listed

theorem candidates_including_eq_ok
    (sameDirectories :
      ∀ directory, directory ∈ directories ↔ directory ∈ moreDirectories)
    (covered :
      ∀ file ∈ files,
        file ∈ moreFiles ∨ tree.FoundByWalk settings directories file)
    (coveredMore :
      ∀ file ∈ moreFiles,
        file ∈ files ∨ tree.FoundByWalk settings directories file)
    {candidates : List Path}
    (found :
      tree.candidates (settings.including directories files) =
        .ok candidates) :
    tree.candidates (settings.including moreDirectories moreFiles) =
      .ok candidates := by
  have kept : directories ⊆ moreDirectories :=
    fun directory => (sameDirectories directory).1
  have keptBack : moreDirectories ⊆ directories :=
    fun directory => (sameDirectories directory).2
  obtain ⟨rootThere, read, walks⟩ := exists_candidates_iff.1 ⟨_, found⟩
  obtain ⟨moreCandidates, moreFound⟩ :
      ∃ moreCandidates,
        tree.candidates (settings.including moreDirectories moreFiles) =
          .ok moreCandidates :=
    exists_candidates_iff.2
      ⟨rootThere, read, fun directory member =>
        walks directory (keptBack member)⟩
  have sameYields (path : Path) :
      (∃ source,
          tree.Yields (settings.including directories files) source path) ↔
        ∃ source,
          tree.Yields (settings.including moreDirectories moreFiles) source
            path := by
    constructor
    · intro yielded
      obtain ⟨source, yields⟩ := yielded
      refine exists_yields_including kept (fun file member => ?_) yields
      exact (covered file member).imp_right (FoundByWalk.mono kept)
    · intro yielded
      obtain ⟨source, yields⟩ := yielded
      exact exists_yields_including keptBack coveredMore yields
  have sameExclude :
      (settings.including directories files).exclude =
        (settings.including moreDirectories moreFiles).exclude :=
    rfl
  rw [moreFound,
    candidates_eq_of_yields sameExclude sameYields found moreFound]

/-- Other lists lead to the same candidates when they have the same directories
and when the walks find every file that only one of them has. -/
theorem candidates_including_eq_ok_iff
    (sameDirectories :
      ∀ directory, directory ∈ directories ↔ directory ∈ moreDirectories)
    (covered :
      ∀ file ∈ files,
        file ∈ moreFiles ∨ tree.FoundByWalk settings directories file)
    (coveredMore :
      ∀ file ∈ moreFiles,
        file ∈ files ∨ tree.FoundByWalk settings directories file)
    {candidates : List Path} :
    tree.candidates (settings.including directories files) =
        .ok candidates ↔
      tree.candidates (settings.including moreDirectories moreFiles) =
        .ok candidates := by
  constructor
  · exact candidates_including_eq_ok sameDirectories covered coveredMore
  · have kept : directories ⊆ moreDirectories :=
      fun directory => (sameDirectories directory).1
    exact
      candidates_including_eq_ok
        (fun directory => (sameDirectories directory).symm)
        (fun file member => (coveredMore file member).imp_right (.mono kept))
        (fun file member => (covered file member).imp_right (.mono kept))

end Lists

end FileTree

end HeaderAudit
