import HeaderAudit.Proofs.Candidates
import HeaderAudit.Proofs.Walk.Faults

/-! A walk that goes less deep, or that does not follow links, reaches fewer
directories and is obstructed by fewer links. -/

namespace HeaderAudit

/-- The same settings with other limits of the walks. -/
def Settings.limited
    (settings : Settings) (followLinks : Bool) (maxDepth : Nat) : Settings :=
  { settings with followLinks, maxDepth }

namespace FileTree

variable
  {tree : FileTree} {settings : Settings} {followLinks more : Bool}
  {maxDepth deeper : Nat}

theorem Obstructs.mono
    {around : Ancestor} {outer : List Ancestor} {name : EntryName}
    (narrower : followLinks = true → more = true)
    (obstructs : tree.Obstructs followLinks around outer name) :
    tree.Obstructs more around outer name :=
  ⟨narrower obstructs.1, obstructs.2⟩

theorem exists_walk_of_wider
    {start : Path} (narrower : followLinks = true → more = true)
    (shallower : maxDepth ≤ deeper) (there : tree.isDirectory start = true)
    (walks : ∃ files, tree.walk more deeper start = .ok files) :
    ∃ files, tree.walk followLinks maxDepth start = .ok files := by
  rw [exists_walk_iff there] at walks ⊢
  intro around outer reached shallow
  obtain ⟨listed, unobstructed⟩ :=
    walks around outer (reached.mono narrower)
      (Nat.lt_of_lt_of_le shallow shallower)
  exact
    ⟨listed, fun name obstructs =>
      unobstructed name (obstructs.mono narrower)⟩

theorem Enters.mono
    {directory : Path} {name : EntryName}
    (narrower : followLinks = true → more = true)
    (enters : tree.Enters followLinks directory name) :
    tree.Enters more directory name :=
  enters.imp_right fun linked => ⟨narrower linked.1, linked.2⟩

theorem Discovers.mono
    {start : Path} {names : List EntryName}
    (narrower : followLinks = true → more = true)
    (shallower : maxDepth ≤ deeper)
    (discovers : tree.Discovers followLinks maxDepth start names) :
    tree.Discovers more deeper start names where
  notEmpty := discovers.notEmpty
  shallow := Nat.le_trans discovers.shallow shallower
  entered outer name inner split notLast :=
    (discovers.entered outer name inner split notLast).mono narrower
  file := discovers.file

theorem exists_watchedFiles_of_wider
    {directory : Path} {files : List Path}
    (narrower : followLinks = true → more = true)
    (shallower : maxDepth ≤ deeper)
    (ran :
      tree.watchedFiles (settings.limited more deeper) directory =
        .ok files) :
    ∃ found,
      tree.watchedFiles (settings.limited followLinks maxDepth) directory =
        .ok found := by
  rcases watchedFiles_eq_ok_iff.1 ran with
    ⟨there, walkedFiles, walked, _⟩ | ⟨missing, _⟩
  · obtain ⟨found, walkedToo⟩ :=
      exists_walk_of_wider narrower shallower there ⟨walkedFiles, walked⟩
    exact
      ⟨_, watchedFiles_eq_ok_iff.2 (Or.inl ⟨there, found, walkedToo, rfl⟩)⟩
  · exact ⟨[], watchedFiles_eq_ok_iff.2 (Or.inr ⟨missing, rfl⟩)⟩

theorem Yields.wider
    {source path : Path} (narrower : followLinks = true → more = true)
    (shallower : maxDepth ≤ deeper)
    (walks :
      ∀ directory ∈ settings.includeDirs, ∃ files,
        tree.watchedFiles (settings.limited more deeper) directory =
          .ok files)
    (yields :
      tree.Yields (settings.limited followLinks maxDepth) source path) :
    tree.Yields (settings.limited more deeper) source path := by
  cases yields with
  | @walked directory _ files member there walked sourceMember =>
      obtain ⟨_, ran⟩ := walks directory member
      rcases watchedFiles_eq_ok_iff.1 ran with
        ⟨_, found, walkedWider, _⟩ | ⟨missing, _⟩
      · obtain ⟨names, discovers, spelled⟩ :=
          (mem_walk_iff walked source).1 sourceMember
        have sourceFound :=
          (mem_walk_iff walkedWider source).2
            ⟨names, discovers.mono narrower shallower, spelled⟩
        exact .walked member there walkedWider sourceFound
      · exact absurd there (Bool.eq_false_iff.1 missing)
  | named member there => exact .named member there

/-- Candidates that are found with wider limits are found with narrower ones,
and nothing is found then that is not found with the wider ones. -/
theorem candidates_limited
    {whole : List Path} (narrower : followLinks = true → more = true)
    (shallower : maxDepth ≤ deeper)
    (found :
      tree.candidates (settings.limited more deeper) = .ok whole) :
    ∃ candidates,
      tree.candidates (settings.limited followLinks maxDepth) =
          .ok candidates ∧
        candidates ⊆ whole := by
  obtain ⟨rootThere, usable, walks⟩ := exists_candidates_iff.1 ⟨_, found⟩
  obtain ⟨candidates, foundToo⟩ :
      ∃ candidates,
        tree.candidates (settings.limited followLinks maxDepth) =
          .ok candidates := by
    refine
      exists_candidates_iff.2 ⟨rootThere, usable, fun directory member => ?_⟩
    obtain ⟨files, ran⟩ := walks directory member
    exact exists_watchedFiles_of_wider narrower shallower ran
  refine ⟨candidates, foundToo, fun path member => ?_⟩
  obtain ⟨kept, source, yields⟩ :=
    (mem_candidates_iff_yields foundToo path).1 member
  exact
    (mem_candidates_iff_yields found path).2
      ⟨kept, source, yields.wider narrower shallower walks⟩

/-- The one file behind the link is two levels deep; it is lost when the limit
is one level or when links are not followed. -/
theorem linkedTree_candidates_limited :
    linkedTree.candidates (linkedSettings.limited true 2) =
        .ok [Path.ofString "lib/a.cpp", Path.ofString "lib/deep/b.hpp"] ∧
      ∀ limits ∈ [(true, 1), (false, 2)],
        linkedTree.candidates (linkedSettings.limited limits.1 limits.2) =
            .ok [Path.ofString "lib/a.cpp"] ∧
          [Path.ofString "lib/a.cpp"] ⊆
            [Path.ofString "lib/a.cpp", Path.ofString "lib/deep/b.hpp"] := by
  have found :
      linkedTree.candidates (linkedSettings.limited true 2) =
        .ok [Path.ofString "lib/a.cpp", Path.ofString "lib/deep/b.hpp"] :=
    linkedTree_candidates
  have foundNarrower :
      ∀ limits ∈ [(true, 1), (false, 2)],
        linkedTree.candidates (linkedSettings.limited limits.1 limits.2) =
            .ok [Path.ofString "lib/a.cpp"] ∧
          limits.2 ≤ 2 := by
    decide +kernel
  refine ⟨found, fun limits member => ?_⟩
  obtain ⟨narrow, shallower⟩ := foundNarrower limits member
  obtain ⟨candidates, again, subset⟩ :=
    candidates_limited (fun _ => rfl) shallower found
  rw [narrow] at again
  cases again
  exact ⟨narrow, subset⟩

end FileTree

end HeaderAudit
