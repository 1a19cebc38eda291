import HeaderAudit.Candidates
import HeaderAudit.FileTree.Edit
import HeaderAudit.Proofs.Exclusion
import HeaderAudit.Proofs.OrderedSet
import HeaderAudit.Proofs.Path.Order
import HeaderAudit.Proofs.Walk

/-! `Yields` keeps the path that a file was found by. Whatever that path was,
the candidate below the root leads to the same file. -/

namespace HeaderAudit

namespace FileTree

/-- The run finds a file by the source path and makes it the candidate with
the second path. -/
inductive Yields (tree : FileTree) (settings : Settings) : Path → Path → Prop
  | walked {directory source : Path} {files : List Path} :
      directory ∈ settings.includeDirs →
      tree.isDirectory (settings.root.join directory) = true →
      tree.walk settings.followLinks settings.maxDepth
          (settings.root.join directory) = .ok files →
      source ∈ files →
      Yields tree settings source
        (settings.root.relativeTo source).normalForm
  | named {file : Path} :
      file ∈ settings.includeFiles →
      tree.isFile (settings.root.join file) = true →
      Yields tree settings (settings.root.join file) file.normalForm

variable {tree : FileTree} {settings : Settings}

theorem candidates_eq_ok_iff {candidates : List Path} :
    tree.candidates settings = .ok candidates ↔
      tree.isDirectory settings.root = true ∧
        ∃ exclusion watched,
          Exclusion.ofEntries settings.exclude = .ok exclusion ∧
            settings.includeDirs.mapM (tree.watchedFiles settings) =
              .ok watched ∧
            candidates =
              (OrderedSet.insertAll []
                  (watched.flatten ++ tree.namedFiles settings)).filter
                fun path => !exclusion.excludes path := by
  unfold FileTree.candidates
  cases tree.isDirectory settings.root with
  | false => simp
  | true =>
      simp only [Bool.not_true, Bool.false_eq_true, if_false, true_and]
      constructor
      · intro found
        obtain ⟨exclusion, read, rest⟩ := bind_eq_ok_iff.1 found
        obtain ⟨watched, ran, built⟩ := bind_eq_ok_iff.1 rest
        cases built
        exact ⟨exclusion, watched, mapError_eq_ok_iff.1 read, ran, rfl⟩
      · intro parts
        obtain ⟨exclusion, watched, read, ran, built⟩ := parts
        rw [built]
        exact
          bind_eq_ok_iff.2
            ⟨exclusion, mapError_eq_ok_iff.2 read,
              bind_eq_ok_iff.2 ⟨watched, ran, rfl⟩⟩

theorem watchedFiles_eq_ok_iff {directory : Path} {files : List Path} :
    tree.watchedFiles settings directory = .ok files ↔
      (tree.isDirectory (settings.root.join directory) = true ∧
        ∃ found,
          tree.walk settings.followLinks settings.maxDepth
              (settings.root.join directory) = .ok found ∧
            files =
              found.map fun file =>
                (settings.root.relativeTo file).normalForm) ∨
      (tree.isDirectory (settings.root.join directory) = false ∧
        files = []) := by
  unfold watchedFiles
  constructor
  · intro ran
    simp only at ran
    split at ran
    · rename_i there
      split at ran
      · cases ran
      · rename_i found walked
        cases ran
        exact Or.inl ⟨there, found, walked, rfl⟩
    · rename_i missing
      cases ran
      exact Or.inr ⟨Bool.eq_false_iff.2 missing, rfl⟩
  · intro either
    rcases either with ⟨there, found, walked, same⟩ | ⟨missing, same⟩
    · simp only [there, if_true, walked, same]
    · simp only [missing, Bool.false_eq_true, if_false, same]

/-- The candidates can be found when every watched directory can be walked. -/
theorem exists_candidates_iff :
    (∃ candidates, tree.candidates settings = .ok candidates) ↔
      tree.isDirectory settings.root = true ∧
        (∃ exclusion, Exclusion.ofEntries settings.exclude = .ok exclusion) ∧
          ∀ directory ∈ settings.includeDirs,
            ∃ files, tree.watchedFiles settings directory = .ok files := by
  constructor
  · intro given
    obtain ⟨candidates, found⟩ := given
    obtain ⟨rootThere, exclusion, watched, read, ran, _⟩ :=
      candidates_eq_ok_iff.1 found
    refine ⟨rootThere, ⟨exclusion, read⟩, fun directory member => ?_⟩
    obtain ⟨files, _, directoryRan⟩ :=
      exists_ok_of_mapM_eq_ok ran directory member
    exact ⟨files, directoryRan⟩
  · intro parts
    obtain ⟨rootThere, ⟨exclusion, read⟩, walks⟩ := parts
    obtain ⟨watched, ran⟩ := exists_mapM_eq_ok walks
    exact
      ⟨_, candidates_eq_ok_iff.2
        ⟨rootThere, exclusion, watched, read, ran, rfl⟩⟩

/-- Only the root, the exclusion list and a walk can keep the candidates from
being found. -/
theorem failure_of_candidates_eq_error
    {failure : Failure}
    (lost : tree.candidates settings = .error failure) :
    failure = .rootMissing settings.root ∨
      (∃ cause, failure = .badExclusion cause) ∨
        ∃ cause, failure = .walk cause := by
  unfold FileTree.candidates at lost
  split at lost
  · cases lost
    exact Or.inl rfl
  · right
    rcases bind_eq_error_iff.1 lost with misread | ⟨_, _, restLost⟩
    · obtain ⟨cause, _, same⟩ := mapError_eq_error_iff.1 misread
      exact Or.inl ⟨cause, same.symm⟩
    · right
      rcases bind_eq_error_iff.1 restLost with walkLost | ⟨_, _, impossible⟩
      · obtain ⟨directory, _, directoryLost⟩ :=
          exists_error_of_mapM_eq_error walkLost
        unfold watchedFiles at directoryLost
        simp only at directoryLost
        split at directoryLost
        · split at directoryLost
          · rename_i cause _
            cases directoryLost
            exact ⟨cause, rfl⟩
          · cases directoryLost
        · cases directoryLost
      · cases impossible

theorem exists_yields_of_mem_watchedFiles
    {directory path : Path} {files : List Path}
    (member : directory ∈ settings.includeDirs)
    (ran : tree.watchedFiles settings directory = .ok files)
    (listed : path ∈ files) :
    ∃ source, tree.Yields settings source path := by
  rcases watchedFiles_eq_ok_iff.1 ran with
    ⟨there, found, walked, rfl⟩ | ⟨_, rfl⟩
  · obtain ⟨source, sourceMember, rfl⟩ := List.mem_map.1 listed
    exact ⟨source, .walked member there walked sourceMember⟩
  · cases listed

theorem mem_found_iff
    {watched : List (List Path)}
    (ran :
      settings.includeDirs.mapM (tree.watchedFiles settings) = .ok watched)
    (path : Path) :
    path ∈ watched.flatten ++ tree.namedFiles settings ↔
      ∃ source, tree.Yields settings source path := by
  rw [List.mem_append, List.mem_flatten]
  constructor
  · intro member
    rcases member with ⟨files, filesMember, pathMember⟩ | named
    · obtain ⟨directory, directoryMember, directoryRan⟩ :=
        (mem_of_mapM_eq_ok ran files).1 filesMember
      exact
        exists_yields_of_mem_watchedFiles directoryMember directoryRan
          pathMember
    · obtain ⟨file, fileMember, rfl⟩ := List.mem_map.1 named
      obtain ⟨listed, there⟩ := List.mem_filter.1 fileMember
      exact ⟨settings.root.join file, .named listed there⟩
  · intro yielded
    obtain ⟨source, yields⟩ := yielded
    cases yields with
    | @walked directory _ found directoryMember there walked sourceMember =>
        obtain ⟨files, filesMember, directoryRan⟩ :=
          exists_ok_of_mapM_eq_ok ran directory directoryMember
        left
        refine ⟨files, filesMember, ?_⟩
        rcases watchedFiles_eq_ok_iff.1 directoryRan with
          ⟨_, again, walkedAgain, rfl⟩ | ⟨missing, _⟩
        · rw [walked] at walkedAgain
          cases walkedAgain
          exact List.mem_map.2 ⟨source, sourceMember, rfl⟩
        · rw [there] at missing
          cases missing
    | @named file listed there =>
        right
        exact
          List.mem_map.2 ⟨file, List.mem_filter.2 ⟨listed, there⟩, rfl⟩

theorem Yields.normalForm_eq
    {source path : Path} (yields : tree.Yields settings source path) :
    path.normalForm = path := by
  cases yields <;> exact Path.normalForm_normalForm _

/-- Candidates are what some path yields and no entry excludes. -/
theorem mem_candidates_iff_yields
    {candidates : List Path}
    (found : tree.candidates settings = .ok candidates) (path : Path) :
    path ∈ candidates ↔
      (∀ entry ∈ settings.exclude,
          ¬ Exclusion.EntryExcludes entry path) ∧
        ∃ source, tree.Yields settings source path := by
  obtain ⟨_, exclusion, watched, read, ran, built⟩ :=
    candidates_eq_ok_iff.1 found
  have equalSame :
      ∀ left ∈ [] ++ (watched.flatten ++ tree.namedFiles settings),
        ∀ right ∈ [] ++ (watched.flatten ++ tree.namedFiles settings),
          compare left right = .eq → left = right := by
    intro left leftMember right rightMember same
    obtain ⟨_, leftYields⟩ := (mem_found_iff ran left).1 leftMember
    obtain ⟨_, rightYields⟩ := (mem_found_iff ran right).1 rightMember
    rw [← leftYields.normalForm_eq, ← rightYields.normalForm_eq] at same ⊢
    exact Path.compare_normalForm_eq_iff.1 same
  have kept :
      (!exclusion.excludes path) = true ↔
        ∀ entry ∈ settings.exclude,
          ¬ Exclusion.EntryExcludes entry path := by
    rw [Bool.not_eq_true', ← Bool.not_eq_true,
      Exclusion.excludes_iff read path]
    simp
  rw [built, List.mem_filter, OrderedSet.mem_insertAll_iff _ equalSame, kept,
    mem_found_iff ran path]
  simp [and_comm]

theorem increasing_candidates
    {candidates : List Path}
    (found : tree.candidates settings = .ok candidates) :
    OrderedSet.Increasing candidates := by
  obtain ⟨_, exclusion, watched, _, _, built⟩ := candidates_eq_ok_iff.1 found
  rw [built]
  exact
    (OrderedSet.increasing_insertAll _ List.Pairwise.nil).sublist
      List.filter_sublist

/-- What yields the candidates decides them, their spelling included. -/
theorem candidates_eq_of_yields
    {other : FileTree} {otherSettings : Settings}
    {candidates otherCandidates : List Path}
    (sameExclude : settings.exclude = otherSettings.exclude)
    (sameYields :
      ∀ path,
        (∃ source, tree.Yields settings source path) ↔
          ∃ source, other.Yields otherSettings source path)
    (found : tree.candidates settings = .ok candidates)
    (otherFound : other.candidates otherSettings = .ok otherCandidates) :
    candidates = otherCandidates := by
  apply (increasing_candidates found).eq_of_mem_iff
    (increasing_candidates otherFound)
  intro path
  rw [mem_candidates_iff_yields found, mem_candidates_iff_yields otherFound,
    sameExclude, sameYields]

/-! ## Where a candidate leads -/

theorem bytes_ne_nil_of_isDirectory
    {path : Path} (there : tree.isDirectory path = true) :
    path.bytes ≠ [] := by
  obtain ⟨location, found⟩ := isDirectory_iff.1 there
  exact (locate_eq_ok_iff.1 (find_eq_ok_iff.1 found).1).1.2.1

theorem relativeTo_below_join
    {root directory : Path} (notEmpty : root.bytes ≠ [])
    (relative : directory.isAbsolute = false) (names : List EntryName) :
    root.relativeTo ((root.join directory).below names) =
      (directory.below names).normalForm := by
  have belowRelative : (directory.below names).isAbsolute = false := by
    rw [Path.isAbsolute_below, relative]
  rw [Path.below_join names root relative,
    Path.relativeTo_join notEmpty belowRelative]

/-- A candidate spells names below a watched directory, or a named file. -/
theorem Yields.exists_below
    {source path : Path} (rootThere : tree.isDirectory settings.root = true)
    (dirsRelative :
      ∀ directory ∈ settings.includeDirs, directory.isAbsolute = false)
    (yields : tree.Yields settings source path) :
    ∃ base ∈ settings.includeDirs ++ settings.includeFiles, ∃ names,
      path = (base.below names).normalForm := by
  cases yields with
  | @walked directory _ files member _ walked sourceMember =>
      obtain ⟨names, _, rfl⟩ := (mem_walk_iff walked source).1 sourceMember
      refine ⟨directory, List.mem_append_left _ member, names, ?_⟩
      rw [relativeTo_below_join (bytes_ne_nil_of_isDirectory rootThere)
        (dirsRelative directory member), Path.normalForm_normalForm]
  | @named file member _ =>
      exact ⟨file, List.mem_append_right _ member, [], rfl⟩

/-- A candidate joined to the root moves as the path it was found by. -/
theorem Yields.moves_join_eq
    {source path : Path} (rootThere : tree.isDirectory settings.root = true)
    (yields : tree.Yields settings source path) :
    (settings.root.join path).moves = source.moves := by
  have notEmpty := bytes_ne_nil_of_isDirectory rootThere
  cases yields with
  | @walked directory _ files _ _ walked sourceMember =>
      apply Path.moves_join_relativeTo notEmpty
      obtain ⟨names, _, rfl⟩ := (mem_walk_iff walked source).1 sourceMember
      cases absolute : directory.isAbsolute with
      | true =>
          left
          rw [Path.isAbsolute_below, Path.join_of_absolute _ absolute,
            absolute]
      | false =>
          right
          have belowRelative : (directory.below names).isAbsolute = false := by
            rw [Path.isAbsolute_below, absolute]
          rw [Path.below_join names settings.root absolute,
            Path.components_join notEmpty belowRelative]
          exact List.prefix_append _ _
  | @named file _ _ => exact Path.moves_join_normalForm settings.root file

theorem Yields.isFile
    {source path : Path} (yields : tree.Yields settings source path) :
    tree.isFile source = true := by
  cases yields with
  | walked _ _ walked sourceMember =>
      obtain ⟨names, discovers, rfl⟩ :=
        (mem_walk_iff walked source).1 sourceMember
      exact discovers.file
  | named _ there => exact there

/-- A candidate joined to the root leads to the file it was found as. -/
theorem Yields.find_join_eq
    {source path : Path} (rootThere : tree.isDirectory settings.root = true)
    (yields : tree.Yields settings source path)
    (short : (settings.root.join path).bytes.length ≤ longestPath) :
    ∃ location content,
      tree.find source = .ok (location, .file content) ∧
        tree.find (settings.root.join path) =
          .ok (location, .file content) := by
  obtain ⟨location, content, found⟩ := isFile_iff.1 yields.isFile
  have sameMoves := yields.moves_join_eq rootThere
  rw [← yields.normalForm_eq] at sameMoves short ⊢
  exact
    ⟨location, content, found,
      find_join_of_file rootThere found sameMoves short⟩

/-- A candidate joined to the root can only be too long to be looked up. -/
theorem Yields.find_join_of_overlong
    {source path : Path} (rootThere : tree.isDirectory settings.root = true)
    (yields : tree.Yields settings source path)
    (overlong : longestPath < (settings.root.join path).bytes.length) :
    tree.find (settings.root.join path) = .error .nameTooLong := by
  obtain ⟨rootEnd, rootFound⟩ := isDirectory_iff.1 rootThere
  obtain ⟨rootAccepted, _⟩ :=
    locate_eq_ok_iff.1 (find_eq_ok_iff.1 rootFound).1
  obtain ⟨location, content, found⟩ := isFile_iff.1 yields.isFile
  obtain ⟨sourceAccepted, _⟩ :=
    locate_eq_ok_iff.1 (find_eq_ok_iff.1 found).1
  have sameMoves := yields.moves_join_eq rootThere
  rw [← yields.normalForm_eq] at sameMoves overlong ⊢
  have clean :=
    notMem_zero_join rootAccepted.1 sourceAccepted.1 sameMoves
  have notEmpty : (settings.root.join path.normalForm).bytes ≠ [] := by
    intro empty
    rw [empty] at overlong
    cases overlong
  unfold find locate
  simp only [clean, notEmpty, overlong, if_true, if_false]

/-- Joining a candidate to the root is no longer than the path it was found
by, unless both the root and a watched directory are absolute. -/
theorem Yields.length_join_le
    {source path : Path} (rootThere : tree.isDirectory settings.root = true)
    (yields : tree.Yields settings source path)
    (spelled :
      settings.root.isAbsolute = false ∨
        ∀ directory ∈ settings.includeDirs, directory.isAbsolute = false) :
    (settings.root.join path).bytes.length ≤ source.bytes.length := by
  have notEmpty := bytes_ne_nil_of_isDirectory rootThere
  cases yields with
  | @walked directory _ files member _ walked sourceMember =>
      obtain ⟨names, _, rfl⟩ := (mem_walk_iff walked source).1 sourceMember
      cases absolute : directory.isAbsolute with
      | false =>
          rw [relativeTo_below_join notEmpty absolute,
            Path.normalForm_normalForm,
            Path.below_join names settings.root absolute]
          exact Path.length_join_normalForm_le _ _
      | true =>
          have rootRelative : settings.root.isAbsolute = false := by
            rcases spelled with rootRelative | dirsRelative
            · exact rootRelative
            · rw [dirsRelative directory member] at absolute
              cases absolute
          have belowAbsolute :
              ((settings.root.join directory).below names).isAbsolute =
                true := by
            rw [Path.isAbsolute_below, Path.join_of_absolute _ absolute,
              absolute]
          -- The root is no beginning of the path, so nothing is stripped.
          have apart :
              ¬ settings.root.components <+:
                ((settings.root.join directory).below names).components := by
            intro begins
            have rootAbsolute :=
              Path.isAbsolute_of_begins notEmpty begins belowAbsolute
            rw [rootRelative] at rootAbsolute
            cases rootAbsolute
          have shorter :=
            Path.length_join_normalForm_le settings.root
              ((settings.root.join directory).below names)
          rw [Path.join_of_absolute settings.root belowAbsolute] at shorter
          rw [Path.relativeTo_of_apart belowAbsolute apart,
            Path.normalForm_normalForm]
          exact shorter
  | named _ _ => exact Path.length_join_normalForm_le _ _

/-! ## The candidates -/

/-- The candidates of a run are the files that names discover below a watched
directory, and the named files that are there, less what an entry excludes. -/
theorem mem_candidates_iff
    {candidates : List Path}
    (dirsRelative :
      ∀ directory ∈ settings.includeDirs, directory.isAbsolute = false)
    (found : tree.candidates settings = .ok candidates) (path : Path) :
    path ∈ candidates ↔
      (∀ entry ∈ settings.exclude,
          ¬ Exclusion.EntryExcludes entry path) ∧
        ((∃ directory ∈ settings.includeDirs,
            tree.isDirectory (settings.root.join directory) = true ∧
              ∃ names,
                tree.Discovers settings.followLinks settings.maxDepth
                    (settings.root.join directory) names ∧
                  path = (directory.below names).normalForm) ∨
          ∃ file ∈ settings.includeFiles,
            tree.isFile (settings.root.join file) = true ∧
              path = file.normalForm) := by
  obtain ⟨rootThere, exclusion, watched, _, ran, _⟩ :=
    candidates_eq_ok_iff.1 found
  have notEmpty := bytes_ne_nil_of_isDirectory rootThere
  rw [mem_candidates_iff_yields found path]
  refine and_congr_right fun _ => ?_
  constructor
  · intro yielded
    obtain ⟨source, yields⟩ := yielded
    cases yields with
    | @walked directory _ files member there walked sourceMember =>
        obtain ⟨names, discovers, rfl⟩ :=
          (mem_walk_iff walked source).1 sourceMember
        refine Or.inl ⟨directory, member, there, names, discovers, ?_⟩
        rw [relativeTo_below_join notEmpty (dirsRelative directory member),
          Path.normalForm_normalForm]
    | @named file member there =>
        exact Or.inr ⟨file, member, there, rfl⟩
  · intro described
    rcases described with
      ⟨directory, member, there, names, discovers, rfl⟩ |
        ⟨file, member, there, rfl⟩
    · obtain ⟨files, _, directoryRan⟩ :=
        exists_ok_of_mapM_eq_ok ran directory member
      rcases watchedFiles_eq_ok_iff.1 directoryRan with
        ⟨_, walkedFiles, walked, _⟩ | ⟨missing, _⟩
      · have sourceMember :=
          (mem_walk_iff walked _).2 ⟨names, discovers, rfl⟩
        have yields := Yields.walked member there walked sourceMember
        rw [relativeTo_below_join notEmpty (dirsRelative directory member),
          Path.normalForm_normalForm] at yields
        exact ⟨_, yields⟩
      · rw [there] at missing
        cases missing
    · exact ⟨_, .named member there⟩

/-- A file, and a link to a directory with another file. -/
def linkedTree : FileTree :=
  FileTree.empty.editAll
    [.file (Path.ofString "lib/a.cpp") [0x23],
      .link (Path.ofString "lib/deep") (Path.ofString "../other"),
      .file (Path.ofString "other/b.hpp") [],
      .file (Path.ofString "lib/gen/c.cpp") []]

/-- Settings with loose spellings that follow the link and go no deeper. -/
def linkedSettings : Settings where
  root := Path.ofString "."
  includeDirs := [Path.ofString "lib/."]
  includeFiles :=
    [Path.ofString "./lib//a.cpp", Path.ofString "CMakeLists.txt"]
  exclude := ["lib/gen/*"]
  followLinks := true
  maxDepth := 2

theorem linkedTree_candidates :
    linkedTree.candidates linkedSettings =
      .ok [Path.ofString "lib/a.cpp", Path.ofString "lib/deep/b.hpp"] := by
  decide +kernel

theorem linkedTree_mem_candidates_iff :
    (∀ directory ∈ linkedSettings.includeDirs,
        directory.isAbsolute = false) ∧
      linkedTree.candidates linkedSettings =
          .ok [Path.ofString "lib/a.cpp", Path.ofString "lib/deep/b.hpp"] ∧
        ((∃ directory ∈ linkedSettings.includeDirs,
            linkedTree.isDirectory
                (linkedSettings.root.join directory) = true ∧
              ∃ names,
                linkedTree.Discovers true 2
                    (linkedSettings.root.join directory) names ∧
                  Path.ofString "lib/deep/b.hpp" =
                    (directory.below names).normalForm) ∨
          ∃ file ∈ linkedSettings.includeFiles,
            linkedTree.isFile (linkedSettings.root.join file) = true ∧
              Path.ofString "lib/deep/b.hpp" = file.normalForm) := by
  have dirsRelative :
      ∀ directory ∈ linkedSettings.includeDirs,
        directory.isAbsolute = false := by
    decide +kernel
  refine ⟨dirsRelative, linkedTree_candidates, ?_⟩
  have member :
      Path.ofString "lib/deep/b.hpp" ∈
        [Path.ofString "lib/a.cpp", Path.ofString "lib/deep/b.hpp"] :=
    List.mem_cons_of_mem _ List.mem_cons_self
  exact
    ((mem_candidates_iff dirsRelative linkedTree_candidates _).1 member).2

end FileTree

end HeaderAudit
