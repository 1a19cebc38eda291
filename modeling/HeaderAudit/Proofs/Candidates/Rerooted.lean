import HeaderAudit.Proofs.Candidates
import HeaderAudit.Proofs.Walk.Rerooted

/-! The root is spelled out in every path that a walk finds, and taken off
again to name the candidate. -/

namespace HeaderAudit

/-- The same settings with another root. -/
def Settings.rootedAt (settings : Settings) (root : Path) : Settings :=
  { settings with root }

/-- Everything that the settings watch or name is relative to the root. -/
structure Settings.IsRelative (settings : Settings) : Prop where
  dirs : ∀ directory ∈ settings.includeDirs, directory.isAbsolute = false
  files : ∀ file ∈ settings.includeFiles, file.isAbsolute = false

theorem Settings.IsRelative.rootedAt
    {settings : Settings} (relative : settings.IsRelative) (root : Path) :
    (settings.rootedAt root).IsRelative :=
  ⟨relative.dirs, relative.files⟩

namespace FileTree

/-- The search for the candidates looks up what its walks look up, and the
named files. -/
inductive LooksUp (tree : FileTree) (settings : Settings) : Path → Prop
  | walked {directory path : Path} :
      directory ∈ settings.includeDirs →
      tree.WalkLooksUp settings.followLinks settings.maxDepth
        (settings.root.join directory) path →
      LooksUp tree settings path
  | named {file : Path} :
      file ∈ settings.includeFiles →
      LooksUp tree settings (settings.root.join file)

/-- Two roots for settings that lead to one directory, such that the search for
the candidates stays within the limits of the operating system with both. -/
structure SharesRoot
    (tree : FileTree) (settings : Settings) (first second : Path) :
    Prop where
  relative : settings.IsRelative
  together : tree.LeadTogether first second
  firstLimits :
    ∀ path, tree.LooksUp (settings.rootedAt first) path →
      tree.WithinLimits path
  secondLimits :
    ∀ path, tree.LooksUp (settings.rootedAt second) path →
      tree.WithinLimits path

variable {tree : FileTree} {settings : Settings} {first second : Path}

/-- The path of a file that was walked begins with the root. -/
theorem exists_rest_of_mem_walk
    {root directory source : Path} {files : List Path}
    {followLinks : Bool} {maxDepth : Nat}
    (notEmpty : root.bytes ≠ []) (relative : directory.isAbsolute = false)
    (walked :
      tree.walk followLinks maxDepth (root.join directory) = .ok files)
    (member : source ∈ files) :
    ∃ rest,
      root.components.isPrefixOf? source.components = some rest ∧
        root.relativeTo source = Path.ofComponents rest := by
  obtain ⟨names, _, rfl⟩ := (mem_walk_iff walked source).1 member
  have belowRelative : (directory.below names).isAbsolute = false := by
    rw [Path.isAbsolute_below, relative]
  have split :
      root.components.isPrefixOf?
          ((root.join directory).below names).components =
        some (directory.below names).moves := by
    rw [Path.below_join names root relative,
      Path.components_join notEmpty belowRelative,
      List.isPrefixOf?_eq_some_iff_append_eq]
  refine ⟨_, split, ?_⟩
  rw [Path.relativeTo, split, Option.getD_some]

namespace SharesRoot

theorem symm
    (shares : tree.SharesRoot settings first second) :
    tree.SharesRoot settings second first where
  relative := shares.relative
  together := shares.together.symm
  firstLimits := shares.secondLimits
  secondLimits := shares.firstLimits

theorem walkWithinLimits
    (shares : tree.SharesRoot settings first second)
    {directory : Path} (member : directory ∈ settings.includeDirs) :
    tree.WalkWithinLimits settings.followLinks settings.maxDepth
      (second.join directory) :=
  fun path looked => shares.secondLimits path (.walked member looked)

theorem isDirectory_join
    (shares : tree.SharesRoot settings first second)
    {directory : Path} (member : directory ∈ settings.includeDirs)
    (there : tree.isDirectory (first.join directory) = true) :
    tree.isDirectory (second.join directory) = true :=
  shares.together.isDirectory_join (shares.relative.dirs directory member)
    (shares.walkWithinLimits member _ .start) there

theorem exists_watchedFiles
    (shares : tree.SharesRoot settings first second)
    {directory : Path} (member : directory ∈ settings.includeDirs)
    (ran :
      ∃ files,
        tree.watchedFiles (settings.rootedAt first) directory = .ok files) :
    ∃ files,
      tree.watchedFiles (settings.rootedAt second) directory =
        .ok files := by
  obtain ⟨files, ran⟩ := ran
  rcases watchedFiles_eq_ok_iff.1 ran with
    ⟨there, found, walked, _⟩ | ⟨missing, _⟩
  · obtain ⟨otherFound, otherWalked⟩ :=
      exists_walk_of_together shares.together
        (shares.relative.dirs directory member)
        (shares.walkWithinLimits member) (shares.symm.walkWithinLimits member)
        there ⟨found, walked⟩
    exact
      ⟨_, watchedFiles_eq_ok_iff.2
        (Or.inl
          ⟨shares.isDirectory_join member there, otherFound, otherWalked,
            rfl⟩)⟩
  · refine ⟨[], watchedFiles_eq_ok_iff.2 (Or.inr ⟨?_, rfl⟩)⟩
    rw [← Bool.not_eq_true] at missing ⊢
    exact fun there => missing (shares.symm.isDirectory_join member there)

/-- A candidate below the one root is a candidate below the other one. -/
theorem exists_yields
    {source path : Path} (shares : tree.SharesRoot settings first second)
    (walks :
      ∀ directory ∈ settings.includeDirs, ∃ files,
        tree.watchedFiles (settings.rootedAt second) directory = .ok files)
    (yields : tree.Yields (settings.rootedAt first) source path) :
    ∃ otherSource,
      tree.Yields (settings.rootedAt second) otherSource path := by
  obtain ⟨home, firstHome, secondHome⟩ := id shares.together
  have firstNotEmpty :=
    bytes_ne_nil_of_isDirectory (isDirectory_iff.2 ⟨home, firstHome⟩)
  have secondNotEmpty :=
    bytes_ne_nil_of_isDirectory (isDirectory_iff.2 ⟨home, secondHome⟩)
  cases yields with
  | @walked directory _ files member there walked sourceMember =>
      have otherThere :
          tree.isDirectory
              ((settings.rootedAt second).root.join directory) = true :=
        shares.isDirectory_join member there
      obtain ⟨_, ran⟩ := walks directory member
      rcases watchedFiles_eq_ok_iff.1 ran with
        ⟨_, otherFiles, otherWalked, _⟩ | ⟨missing, _⟩
      · obtain ⟨inner, relative, rfl, otherMember⟩ :=
          mem_walk_of_together shares.together
            (shares.relative.dirs directory member)
            (shares.walkWithinLimits member)
            (shares.symm.walkWithinLimits member) there walked otherWalked
            sourceMember
        have otherYields :
            tree.Yields (settings.rootedAt second) (second.join inner)
              (second.relativeTo (second.join inner)).normalForm :=
          .walked member otherThere otherWalked otherMember
        have sameName :
            second.relativeTo (second.join inner) =
              first.relativeTo (first.join inner) := by
          rw [Path.relativeTo_join secondNotEmpty relative,
            Path.relativeTo_join firstNotEmpty relative]
        rw [sameName] at otherYields
        exact ⟨second.join inner, otherYields⟩
      · rw [otherThere] at missing
        cases missing
  | @named file member there =>
      have otherThere :=
        shares.together.isFile_join (shares.relative.files file member)
          (shares.secondLimits _ (.named member)) there
      exact ⟨second.join file, .named member otherThere⟩

/-- The candidates below the one root are those below the other one. -/
theorem candidates_eq_ok
    {candidates : List Path} (shares : tree.SharesRoot settings first second)
    (found : tree.candidates (settings.rootedAt first) = .ok candidates) :
    tree.candidates (settings.rootedAt second) = .ok candidates := by
  obtain ⟨_, usable, walks⟩ := exists_candidates_iff.1 ⟨_, found⟩
  obtain ⟨home, _, secondHome⟩ := id shares.together
  have secondThere :
      tree.isDirectory (settings.rootedAt second).root = true :=
    isDirectory_iff.2 ⟨home, secondHome⟩
  have otherWalks :
      ∀ directory ∈ settings.includeDirs, ∃ files,
        tree.watchedFiles (settings.rootedAt second) directory = .ok files :=
    fun directory member =>
      shares.exists_watchedFiles member (walks directory member)
  obtain ⟨others, otherFound⟩ :
      ∃ others, tree.candidates (settings.rootedAt second) = .ok others :=
    exists_candidates_iff.2 ⟨secondThere, usable, otherWalks⟩
  have sameYields (path : Path) :
      (∃ source, tree.Yields (settings.rootedAt first) source path) ↔
        ∃ source, tree.Yields (settings.rootedAt second) source path := by
    constructor
    · intro yielded
      obtain ⟨_, yields⟩ := yielded
      exact shares.exists_yields otherWalks yields
    · intro yielded
      obtain ⟨_, yields⟩ := yielded
      exact shares.symm.exists_yields walks yields
  have sameExclude :
      (settings.rootedAt first).exclude = (settings.rootedAt second).exclude :=
    rfl
  rw [otherFound,
    candidates_eq_of_yields sameExclude sameYields found otherFound]

end SharesRoot

end FileTree

end HeaderAudit
