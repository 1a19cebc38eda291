import HeaderAudit.Proofs.Audit.Lockstep
import HeaderAudit.Proofs.Candidates.Shape
import HeaderAudit.Proofs.FileTree.Reordered

/-! The order in which directories list their names decides only which of
several faults a walk meets first. -/

namespace HeaderAudit

namespace FileTree.Reordered

variable {left right : FileTree} {settings : Settings}

theorem candidates_eq_ok_iff
    (same : left.Reordered right) {candidates : List Path} :
    left.candidates settings = .ok candidates ↔
      right.candidates settings = .ok candidates :=
  ⟨same.sameShape.candidates_eq_ok, same.symm.sameShape.candidates_eq_ok⟩

theorem examine_eq (same : left.Reordered right) (root path : Path) :
    left.examine root path = right.examine root path := by
  simp only [examine, readCandidate, same.read_eq]

end FileTree.Reordered

variable
  {state : Type} {watcher : Watcher state} {left right : FileTree}

theorem sameVerdicts_of_reordered
    (same : left.Reordered right)
    (alike : watcher.KeepsTree ∨ watcher.Respects FileTree.Reordered)
    (root : Path) (watched : state) (paths : List Path) :
    SameVerdicts root watcher watcher (watched, left) (watched, right)
      paths := by
  rcases alike with quiet | respects
  · exact .of_keepsTree quiet quiet fun path _ => same.examine_eq root path
  · intro before path _ _
    obtain ⟨_, reordered⟩ :=
      @Watcher.Respects.tell _ _ _ respects (before ++ [path])
        (watched, left) (watched, right) rfl same
    exact reordered.examine_eq root path

/-- Whether the candidates are found, which they are, what the watcher is told
and what is reported do not depend on the order in which directories list
their names. -/
theorem audit_of_reordered
    (same : left.Reordered right)
    (alike : watcher.KeepsTree ∨ watcher.Respects FileTree.Reordered)
    (settings : Settings) (watched : state) :
    (∀ candidates,
        left.candidates settings = .ok candidates ↔
          right.candidates settings = .ok candidates) ∧
      toldPaths settings watcher watched left =
        toldPaths settings watcher watched right ∧
      ((∃ candidates, left.candidates settings = .ok candidates) →
        (audit settings watcher watched left).outcome =
          (audit settings watcher watched right).outcome) ∧
      ∀ report,
        (audit settings watcher watched left).outcome = .ok report ↔
          (audit settings watcher watched right).outcome = .ok report := by
  have sameFound (candidates : List Path) :
      left.candidates settings = .ok candidates ↔
        right.candidates settings = .ok candidates :=
    same.candidates_eq_ok_iff
  obtain ⟨sameTold, sameOutcome⟩ :=
    audit_of_sameVerdicts sameFound fun candidates _ =>
      sameVerdicts_of_reordered same alike settings.root watched candidates
  have sameWhenFound
      (leftFound : ∃ candidates, left.candidates settings = .ok candidates) :
      (audit settings watcher watched left).outcome =
        (audit settings watcher watched right).outcome := by
    obtain ⟨candidates, found⟩ := leftFound
    apply sameOutcome
    rw [found, (sameFound candidates).1 found]
  exact
    ⟨sameFound, sameTold, sameWhenFound,
      reported_iff_of_found sameFound sameWhenFound⟩

/-- Two scripts and a link to a directory, in one order or in the other. -/
def shuffledTree (turned : Bool) : FileTree :=
  let edits : List Edit :=
    [.file (Path.ofString "lib/a.py") [0x23],
      .file (Path.ofString "lib/b.py") [0x23],
      .link (Path.ofString "lib/in") (Path.ofString "../other"),
      .file (Path.ofString "other/c.txt") []]
  FileTree.empty.editAll (if turned then edits.reverse else edits)

/-- Settings that watch one directory and follow the links in it. -/
def shuffledSettings : Settings where
  root := Path.ofString "."
  includeDirs := [Path.ofString "lib"]
  includeFiles := []
  exclude := []
  followLinks := true
  maxDepth := 64

/-- Once the first script is announced, the second one is no text. -/
def spoiling (path : Path) : List Edit :=
  if path = Path.ofString "lib/a.py" then
    [.file (Path.ofString "lib/b.py") [0xFF]]
  else
    []

/-- A watcher that counts what it is told of and spoils the second script. -/
def spoiler : Watcher Nat :=
  fun world path => (world.1 + 1, world.2.editAll (spoiling path))

theorem spoiler_respects : spoiler.Respects FileTree.Reordered :=
  FileTree.Reordered.keptByEdits.respects (fun count _ => count + 1)
    (fun _ path => spoiling path)

/-- The directory lists its names in different orders, and although the watcher
changes the tree, the run tells and gives the same. -/
theorem shuffledTree_audit_of_reordered :
    (shuffledTree false).Reordered (shuffledTree true) ∧
      spoiler.Respects FileTree.Reordered ∧
      (shuffledTree false).entries ≠ (shuffledTree true).entries ∧
      (shuffledTree false).candidates shuffledSettings =
        .ok
          [Path.ofString "lib/a.py", Path.ofString "lib/b.py",
            Path.ofString "lib/in/c.txt"] ∧
      toldPaths shuffledSettings spoiler 0 (shuffledTree false) =
        toldPaths shuffledSettings spoiler 0 (shuffledTree true) ∧
      (audit shuffledSettings spoiler 0 (shuffledTree false)).outcome =
        (audit shuffledSettings spoiler 0 (shuffledTree true)).outcome := by
  have same : (shuffledTree false).Reordered (shuffledTree true) :=
    ⟨by decide +kernel, by decide +kernel, by decide +kernel⟩
  have found :
      (shuffledTree false).candidates shuffledSettings =
        .ok
          [Path.ofString "lib/a.py", Path.ofString "lib/b.py",
            Path.ofString "lib/in/c.txt"] := by
    decide +kernel
  obtain ⟨_, sameTold, sameOutcome, _⟩ :=
    audit_of_reordered same (Or.inr spoiler_respects) shuffledSettings 0
  exact
    ⟨same, spoiler_respects, by decide +kernel, found, sameTold,
      sameOutcome ⟨_, found⟩⟩

end HeaderAudit
