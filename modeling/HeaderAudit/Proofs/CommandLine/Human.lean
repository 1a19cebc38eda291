import HeaderAudit.CommandLine.Program
import HeaderAudit.Proofs.Audit.Log
import HeaderAudit.Proofs.Audit.Unchanged
import HeaderAudit.Proofs.Report.LastLine

/-! A failed run can end in the success line only when the last announced
candidate cannot be read, so that it need not be governed. -/

namespace HeaderAudit

namespace Program

/-- The paths that a run with this outcome announces: none when the candidates
cannot be found, and else the candidates in order, up to the first that cannot
be examined. -/
inductive Announces (tree : FileTree) (settings : Settings) :
    List Path → Except Failure Report → Prop
  | lost {failure : Failure} :
      tree.candidates settings = .error failure →
      Announces tree settings [] (.error failure)
  | found
      {candidates announced : List Path} {outcome : Except Failure Report} :
      tree.candidates settings = .ok candidates →
      OrderedSet.Increasing candidates →
      tree.ExaminesUntilFailure settings.root candidates announced outcome →
      Announces tree settings announced outcome

theorem announce_keepsTree : announce.KeepsTree :=
  fun _ _ => rfl

/-- A watcher that keeps the tree is told of the paths that are announced. -/
theorem announces_toldPaths
    {state : Type} {watcher : Watcher state} (quiet : watcher.KeepsTree)
    (settings : Settings) (watched : state) (tree : FileTree) :
    Announces tree settings (toldPaths settings watcher watched tree)
      (audit settings watcher watched tree).outcome := by
  cases found : tree.candidates settings with
  | error failure =>
      have nothing : toldPaths settings watcher watched tree = [] :=
        toldPaths_of_error found
      rw [nothing, audit_of_lost found]
      exact .lost found
  | ok candidates =>
      obtain ⟨ending, final, _, examines, same⟩ :=
        exists_examines watcher watched found
      have examined := examines.examined_of_keepsTree quiet
      have increasing := FileTree.increasing_candidates found
      rw [same]
      apply Announces.found found increasing
      cases ending with
      | ok violations => exact examined
      | error failure => exact examined

variable {tree : FileTree} {settings : Settings}

theorem invoke_eq_runHuman
    {arguments : List (List UInt8)} {options : Options}
    (asked : Request.parse arguments = .ok (.run options))
    (human : options.format.getD .human = .human)
    (tree : FileTree) (sink : Sink) :
    invoke tree arguments sink =
      .ok
        (logAt (.ofVerbosity options.verbosity)
          (runHuman tree options.settings sink)) := by
  unfold invoke
  rw [asked]
  simp only [bind, Except.bind, pure, Except.pure, run, human]

/-- A tree whose first candidate is not governed and ends like a success, and
whose second one is governed and no text. -/
def disguisedTree : FileTree :=
  FileTree.empty.editAll
    [.file (Path.ofString "lib/a\nOK!") [],
      .file (Path.ofString "lib/b.cpp") [0xFF]]

/-- The arguments that have only this directory watched. -/
def watching (directory : String) : List (List UInt8) :=
  [Utf8.encode "--include-dir".toList, Utf8.encode directory.toList]

end Program

end HeaderAudit
