import HeaderAudit.Proofs.Audit.Run
import HeaderAudit.Proofs.Candidates.Included

/-! A run depends on the lists of directories and files only through the
candidates. -/

namespace HeaderAudit

/-- Two audits have the same outcome and leave the same behind, whatever they
log. -/
structure AuditResult.SameEnd
    {state : Type} (first second : AuditResult state) : Prop where
  outcome : first.outcome = second.outcome
  watched : first.watched = second.watched
  tree : first.tree = second.tree

/-- The runs on a tree with the one or the other settings succeed or fail
together, and when they succeed they are the same but for the log, whoever
watches. -/
structure FileTree.SameRuns
    (tree : FileTree) (first second : Settings) : Prop where
  found :
    ∀ candidates,
      tree.candidates first = .ok candidates ↔
        tree.candidates second = .ok candidates
  told :
    ∀ {state : Type} (watcher : Watcher state) (watched : state),
      toldPaths first watcher watched tree =
        toldPaths second watcher watched tree
  result :
    ∀ {state : Type} (watcher : Watcher state) (watched : state),
      (∃ candidates, tree.candidates first = .ok candidates) →
        (audit first watcher watched tree).SameEnd
          (audit second watcher watched tree)
  reported :
    ∀ {state : Type} (watcher : Watcher state) (watched : state) (report),
      (audit first watcher watched tree).outcome = .ok report ↔
        (audit second watcher watched tree).outcome = .ok report

namespace FileTree

variable {tree : FileTree} {first second : Settings}

theorem sameEnd_of_candidates
    {state : Type} {watcher : Watcher state} {watched : state}
    {candidates : List Path}
    (sameRoot : first.root = second.root)
    (found : tree.candidates first = .ok candidates)
    (otherFound : tree.candidates second = .ok candidates) :
    (audit first watcher watched tree).SameEnd
      (audit second watcher watched tree) := by
  obtain ⟨_, same⟩ := exists_audit_eq watcher watched found
  obtain ⟨_, otherSame⟩ := exists_audit_eq watcher watched otherFound
  rw [same, otherSame, sameRoot]
  exact ⟨rfl, rfl, rfl⟩

theorem sameRuns_of_candidates
    (sameRoot : first.root = second.root)
    (sameFound :
      ∀ candidates,
        tree.candidates first = .ok candidates ↔
          tree.candidates second = .ok candidates) :
    tree.SameRuns first second := by
  have sameAudit
      {state : Type} (watcher : Watcher state) (watched : state)
      (given : ∃ candidates, tree.candidates first = .ok candidates) :
      (audit first watcher watched tree).SameEnd
        (audit second watcher watched tree) := by
    obtain ⟨candidates, found⟩ := given
    exact
      sameEnd_of_candidates sameRoot found ((sameFound candidates).1 found)
  refine ⟨sameFound, fun watcher watched => ?_, sameAudit,
    fun watcher watched => ?_⟩
  · cases found : tree.candidates first with
    | ok candidates =>
        exact
          congrArg Prod.fst (sameAudit watcher.logged _ ⟨_, found⟩).watched
    | error failure =>
        cases otherFound : tree.candidates second with
        | ok candidates =>
            rw [(sameFound candidates).2 otherFound] at found
            cases found
        | error otherFailure =>
            rw [toldPaths_of_error found, toldPaths_of_error otherFound]
  · apply reported_iff_of_found sameFound
    intro given
    exact (sameAudit watcher watched given).outcome

end FileTree

/-- The candidates can be found for lists put together when they can be found
for the parts, and are then those of the parts put together.  Lists with the
same members lead to the same runs, and so do lists that differ, beyond that,
only in files that the walks find. -/
theorem runs_of_included_lists
    (tree : FileTree) (settings : Settings)
    (directories moreDirectories files moreFiles : List Path) :
    ((∃ whole,
        tree.candidates
            (settings.including (directories ++ moreDirectories)
              (files ++ moreFiles)) = .ok whole) ↔
      (∃ candidates,
          tree.candidates (settings.including directories files) =
            .ok candidates) ∧
        ∃ candidates,
          tree.candidates (settings.including moreDirectories moreFiles) =
            .ok candidates) ∧
      (∀ whole candidates moreCandidates,
        tree.candidates
            (settings.including (directories ++ moreDirectories)
              (files ++ moreFiles)) = .ok whole →
          tree.candidates (settings.including directories files) =
              .ok candidates →
            tree.candidates (settings.including moreDirectories moreFiles) =
                .ok moreCandidates →
              ∀ path,
                path ∈ whole ↔
                  path ∈ candidates ∨ path ∈ moreCandidates) ∧
      ∀ otherDirectories otherFiles,
        (∀ directory,
            directory ∈ directories ↔ directory ∈ otherDirectories) →
          (∀ file ∈ files,
              file ∈ otherFiles ∨
                tree.FoundByWalk settings directories file) →
            (∀ file ∈ otherFiles,
                file ∈ files ∨
                  tree.FoundByWalk settings directories file) →
              tree.SameRuns (settings.including directories files)
                (settings.including otherDirectories otherFiles) := by
  refine ⟨FileTree.exists_candidates_including_append_iff, ?_, ?_⟩
  · intro whole candidates moreCandidates found firstFound secondFound
    exact
      FileTree.mem_candidates_including_append_iff found firstFound secondFound
  · intro otherDirectories otherFiles sameDirectories covered otherCovered
    refine FileTree.sameRuns_of_candidates ?_ fun candidates => ?_
    · rfl
    · exact
        FileTree.candidates_including_eq_ok_iff sameDirectories covered
          otherCovered

/-- A script in a watched directory and one in a directory below it. -/
def nestedTree : FileTree :=
  FileTree.empty.editAll
    [.file (Path.ofString "lib/a.py") [0x23],
      .file (Path.ofString "lib/in/b.py") []]

/-- Settings that exclude some scripts and leave open what is watched. -/
def nestedSettings : Settings where
  root := Path.ofString "."
  includeDirs := []
  includeFiles := []
  exclude := ["lib/in/c*"]
  followLinks := false
  maxDepth := 64

/-- A directory that is watched twice, and scripts in it that are named in
other spellings. -/
theorem nestedTree_runs_of_included_lists :
    nestedTree.candidates
        (nestedSettings.including [Path.ofString "lib"] []) =
        .ok [Path.ofString "lib/a.py", Path.ofString "lib/in/b.py"] ∧
      (∀ file ∈
          [Path.ofString "./lib//a.py", Path.ofString "lib/in/./b.py/"],
        nestedTree.FoundByWalk nestedSettings [Path.ofString "lib"] file) ∧
      nestedTree.SameRuns
        (nestedSettings.including [Path.ofString "lib"] [])
        (nestedSettings.including [Path.ofString "lib", Path.ofString "lib"]
          [Path.ofString "./lib//a.py", Path.ofString "lib/in/./b.py/"]) := by
  have walked :
      nestedTree.watchedFiles nestedSettings (Path.ofString "lib") =
        .ok [Path.ofString "lib/a.py", Path.ofString "lib/in/b.py"] := by
    decide +kernel
  have found :
      ∀ file ∈
          [Path.ofString "./lib//a.py", Path.ofString "lib/in/./b.py/"],
        nestedTree.FoundByWalk nestedSettings [Path.ofString "lib"] file := by
    have spelled :
        ∀ file ∈
            [Path.ofString "./lib//a.py", Path.ofString "lib/in/./b.py/"],
          file.normalForm ∈
            [Path.ofString "lib/a.py", Path.ofString "lib/in/b.py"] := by
      decide +kernel
    exact fun file member =>
      ⟨_, List.mem_singleton_self _, _, walked, spelled file member⟩
  obtain ⟨_, _, sameRuns⟩ :=
    runs_of_included_lists nestedTree nestedSettings
      [Path.ofString "lib"] [] [] []
  exact
    ⟨by decide +kernel, found,
      sameRuns _ _ (fun directory => by simp) (fun _ => nofun)
        (fun file member => Or.inr (found file member))⟩

end HeaderAudit
