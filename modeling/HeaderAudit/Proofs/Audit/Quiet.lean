import HeaderAudit.Proofs.Audit.Lockstep

/-! What comes of a run does not depend on who watches it, as long as the
watcher keeps the tree. It is called the finding of the tree. -/

namespace HeaderAudit

/-- The watcher that does nothing. -/
def Watcher.silent : Watcher Unit :=
  fun world _ => world

@[simp] theorem Watcher.silent_apply
    (world : Unit × FileTree) (path : Path) :
    Watcher.silent world path = world :=
  rfl

theorem Watcher.silent_keepsTree : Watcher.silent.KeepsTree :=
  fun _ _ => rfl

/-- What comes of a run that nothing interferes with. -/
def FileTree.finding (tree : FileTree) (settings : Settings) :
    Except Failure Report :=
  (audit settings Watcher.silent () tree).outcome

theorem outcome_eq_finding
    {state : Type} {watcher : Watcher state} (quiet : watcher.KeepsTree)
    (settings : Settings) (watched : state) (tree : FileTree) :
    (audit settings watcher watched tree).outcome =
      tree.finding settings := by
  have sameVerdicts
      (candidates : List Path)
      (_ : tree.candidates settings = .ok candidates) :
      SameVerdicts settings.root watcher Watcher.silent (watched, tree)
        ((), tree) candidates :=
    .of_keepsTree quiet Watcher.silent_keepsTree fun _ _ => rfl
  exact (audit_of_sameVerdicts (fun _ => Iff.rfl) sameVerdicts).2 rfl

namespace FileTree

variable {tree : FileTree} {settings : Settings} {report : Report}

/-- A report counts the candidates and lists the governed ones without their
header. -/
theorem exists_candidates_of_finding
    (found : tree.finding settings = .ok report) :
    ∃ candidates,
      tree.candidates settings = .ok candidates ∧
        report.root = settings.root ∧
        report.processedFiles = candidates.length ∧
        (∀ path ∈ candidates, tree.Completes settings.root path) ∧
        ∀ violation,
          violation ∈ report.violations ↔
            violation.path ∈ candidates ∧
              violation.category = Category.ofPath violation.path ∧
                ∃ bytes,
                  tree.read (settings.root.join violation.path) = .ok bytes ∧
                    violation.category.Violates bytes := by
  unfold finding at found
  cases listed : tree.candidates settings with
  | error failure =>
      rw [audit_of_lost listed] at found
      cases found
  | ok candidates =>
      obtain ⟨ending, final, log, examines, same⟩ :=
        exists_examines Watcher.silent () listed
      rw [same] at found
      obtain ⟨violations, ended, rfl⟩ := map_eq_ok_iff.1 found
      obtain ⟨completes, described⟩ :=
        examines.completed_of_keepsTree Watcher.silent_keepsTree listed ended
      exact ⟨candidates, rfl, rfl, rfl, completes, described⟩

/-- A run reaches a report when every candidate completes. -/
theorem exists_finding_of_completes
    {candidates : List Path}
    (listed : tree.candidates settings = .ok candidates)
    (completes :
      ∀ path ∈ candidates, tree.Completes settings.root path) :
    ∃ report, tree.finding settings = .ok report := by
  obtain ⟨ending, final, log, examines, same⟩ :=
    exists_examines Watcher.silent () listed
  cases ended : ending with
  | ok violations =>
      exact ⟨_, by rw [finding, same, ended, Except.map]⟩
  | error failure =>
      obtain ⟨before, path, after, split, _, _, incomplete, _⟩ :=
        examines.stopped_of_keepsTree Watcher.silent_keepsTree listed ended
      have member : path ∈ candidates := by
        rw [split]
        exact List.mem_append_cons_self
      exact absurd (completes path member) incomplete

theorem gather_silent_of_ok
    {root path : Path} {rest : List Path} {verdict : Option Violation}
    (examined : tree.examine root path = .ok verdict) :
    (gather root Watcher.silent ((), tree) (path :: rest)).1 =
      (gather root Watcher.silent ((), tree) rest).1.map
        (verdict.toList ++ ·) := by
  simp only [gather, Watcher.silent_apply, examined]

/-- A run that finds no fault with any candidate has a report without
violations. -/
theorem finding_of_clean
    {candidates : List Path}
    (listed : tree.candidates settings = .ok candidates)
    (clean :
      ∀ path ∈ candidates, tree.examine settings.root path = .ok none) :
    tree.finding settings =
      .ok (Report.ofViolations settings.root candidates.length []) := by
  have examined (paths : List Path)
      (pathsClean :
        ∀ path ∈ paths, tree.examine settings.root path = .ok none) :
      (gather settings.root Watcher.silent ((), tree) paths).1 =
        .ok [] := by
    induction paths with
    | nil => rfl
    | cons path rest inductionHypothesis =>
        obtain ⟨pathClean, restClean⟩ := List.forall_mem_cons.1 pathsClean
        have later := inductionHypothesis restClean
        rw [gather_silent_of_ok pathClean, later]
        rfl
  rw [finding, outcome_eq_gather listed, examined candidates clean]
  rfl

end FileTree

end HeaderAudit
