import HeaderAudit.Proofs.Audit.Loop
import HeaderAudit.Proofs.Candidates
import HeaderAudit.Proofs.Report.Violations
import Mathlib.Data.List.Nodup

/-! `Examines` lays a run out path by path. Whatever the watcher does, a
candidate is judged on the tree that the watcher leaves when it is told of that
candidate. -/

namespace HeaderAudit

variable {state : Type}

namespace Watcher

/-- What is left when the watcher was told of paths, one after the other. -/
def tell
    (watcher : Watcher state) (world : state × FileTree)
    (paths : List Path) :
    state × FileTree :=
  paths.foldl watcher world

@[simp] theorem tell_nil
    (watcher : Watcher state) (world : state × FileTree) :
    watcher.tell world [] = world :=
  rfl

@[simp] theorem tell_cons
    (watcher : Watcher state) (world : state × FileTree)
    (path : Path) (rest : List Path) :
    watcher.tell world (path :: rest) =
      watcher.tell (watcher world path) rest :=
  rfl

/-- The watcher that does the same and keeps a list of what it was told. -/
def logged (watcher : Watcher state) : Watcher (List Path × state) :=
  fun world path =>
    let (watched, tree) := watcher (world.1.2, world.2) path
    ((world.1.1 ++ [path], watched), tree)

end Watcher

/-- The paths that the watcher is told of in an audit. -/
def toldPaths
    (settings : Settings) (watcher : Watcher state)
    (watched : state) (tree : FileTree) :
    List Path :=
  (audit settings watcher.logged ([], watched) tree).watched.1

/-- How candidates are examined: from which world, which of them the watcher
is told of, what comes of it, and in which world it ends. -/
inductive Examines (root : Path) (watcher : Watcher state) :
    state × FileTree → List Path → List Path →
      Except Failure (List Violation) → state × FileTree → Prop
  | finished {world : state × FileTree} :
      Examines root watcher world [] [] (.ok []) world
  | stopped
      {world : state × FileTree} {path : Path} {rest : List Path}
      {failure : Failure} :
      (watcher world path).2.examine root path = .error failure →
      Examines root watcher world (path :: rest) [path] (.error failure)
        (watcher world path)
  | judged
      {world final : state × FileTree} {path : Path}
      {rest told : List Path} {verdict : Option Violation}
      {outcome : Except Failure (List Violation)} :
      (watcher world path).2.examine root path = .ok verdict →
      Examines root watcher (watcher world path) rest told outcome final →
      Examines root watcher world (path :: rest) (path :: told)
        (outcome.map (verdict.toList ++ ·)) final

variable {root : Path} {watcher : Watcher state}

theorem gather_examines
    (root : Path) (watcher : Watcher state) (paths : List Path) :
    ∀ (log : List Path) (watched : state) (tree : FileTree),
      ∃ told,
        Examines root watcher (watched, tree) paths told
            (gather root watcher (watched, tree) paths).1
            (gather root watcher (watched, tree) paths).2 ∧
          gather root watcher.logged ((log, watched), tree) paths =
            ((gather root watcher (watched, tree) paths).1,
              ((log ++ told,
                (gather root watcher (watched, tree) paths).2.1),
                (gather root watcher (watched, tree) paths).2.2)) := by
  -- The list kept so far is arbitrary, because every call adds to it.
  induction paths with
  | nil =>
      intro log watched tree
      refine ⟨[], .finished, ?_⟩
      simp [gather]
  | cons path rest inductionHypothesis =>
      intro log watched tree
      cases examined :
          (watcher (watched, tree) path).2.examine root path with
      | error failure =>
          have stopped :
              Examines root watcher (watched, tree) (path :: rest) [path]
                (.error failure) (watcher (watched, tree) path) :=
            .stopped examined
          refine ⟨[path], ?_, ?_⟩
          · simpa [gather, examined] using stopped
          · simp [gather, Watcher.logged, examined]
      | ok verdict =>
          obtain ⟨told, examines, same⟩ :=
            inductionHypothesis (log ++ [path])
              (watcher (watched, tree) path).1
              (watcher (watched, tree) path).2
          refine ⟨path :: told, ?_, ?_⟩
          · simpa [gather, examined] using
              Examines.judged examined examines
          · simp [gather, Watcher.logged, examined, same]

namespace Examines

variable
  {world final : state × FileTree} {paths told : List Path}
  {outcome : Except Failure (List Violation)}

theorem told_begins
    (examines : Examines root watcher world paths told outcome final) :
    told <+: paths := by
  induction examines with
  | finished => exact List.prefix_rfl
  | stopped _ => exact ⟨_, rfl⟩
  | judged _ _ inductionHypothesis =>
      exact (List.prefix_cons_inj _).2 inductionHypothesis

theorem final_eq
    (examines : Examines root watcher world paths told outcome final) :
    final = watcher.tell world told := by
  induction examines with
  | finished => rfl
  | stopped _ => rfl
  | judged _ _ inductionHypothesis => exact inductionHypothesis

theorem told_eq
    {violations : List Violation}
    (examines : Examines root watcher world paths told outcome final)
    (ended : outcome = .ok violations) :
    told = paths := by
  induction examines generalizing violations with
  | finished => rfl
  | stopped _ => cases ended
  | judged _ _ inductionHypothesis =>
      obtain ⟨later, laterEnded, _⟩ := map_eq_ok_iff.1 ended
      rw [inductionHypothesis laterEnded]

theorem exists_last
    {failure : Failure}
    (examines : Examines root watcher world paths told outcome final)
    (ended : outcome = .error failure) :
    ∃ before last,
      told = before ++ [last] ∧
        final.2.examine root last = .error failure := by
  induction examines with
  | finished => cases ended
  | @stopped _ path _ _ examined =>
      cases ended
      exact ⟨[], path, rfl, examined⟩
  | @judged _ _ path _ _ _ outcome _ _ inductionHypothesis =>
      cases outcome with
      | ok violations => cases ended
      | error raised =>
          cases ended
          obtain ⟨before, last, split, examined⟩ := inductionHypothesis rfl
          exact ⟨path :: before, last, by rw [split]; rfl, examined⟩

/-- A candidate is examined to its end when another follows or when there is a
report. -/
theorem exists_verdict
    (examines : Examines root watcher world paths told outcome final) :
    ∀ {before : List Path} {path : Path} {later : List Path},
      told = before ++ path :: later →
        (later ≠ [] ∨ ∃ violations, outcome = .ok violations) →
          ∃ verdict,
            (watcher.tell world (before ++ [path])).2.examine root path =
              .ok verdict := by
  induction examines with
  | finished =>
      intro before path later split _
      cases before <;> cases split
  | stopped _ =>
      intro before path later split goesOn
      cases before with
      | nil =>
          cases split
          rcases goesOn with following | ⟨_, impossible⟩
          · exact absurd rfl following
          · cases impossible
      | cons first others =>
          injection split with _ restSplit
          cases others <;> cases restSplit
  | @judged _ _ first _ _ verdict outcome examined _ inductionHypothesis =>
      intro before path later split goesOn
      cases before with
      | nil =>
          cases split
          exact ⟨verdict, examined⟩
      | cons _ others =>
          injection split with sameFirst restSplit
          subst sameFirst
          refine inductionHypothesis restSplit ?_
          rcases goesOn with following | ⟨violations, ended⟩
          · exact Or.inl following
          · obtain ⟨remaining, remainingEnded, _⟩ := map_eq_ok_iff.1 ended
            exact Or.inr ⟨remaining, remainingEnded⟩

theorem mem_violations_iff
    {violations : List Violation} {violation : Violation}
    (examines : Examines root watcher world paths told outcome final)
    (ended : outcome = .ok violations) :
    violation ∈ violations ↔
      ∃ before path after,
        paths = before ++ path :: after ∧
          (watcher.tell world (before ++ [path])).2.examine root path =
            .ok (some violation) := by
  induction examines generalizing violations with
  | finished =>
      cases ended
      simp
  | stopped _ => cases ended
  | @judged _ _ path rest _ verdict outcome examined _ inductionHypothesis =>
      obtain ⟨later, laterEnded, joined⟩ := map_eq_ok_iff.1 ended
      rw [← joined, List.mem_append, inductionHypothesis laterEnded,
        Option.mem_toList]
      constructor
      · intro either
        rcases either with own | ⟨before, tested, after, split, testedRun⟩
        · rw [own] at examined
          exact ⟨[], path, rest, rfl, examined⟩
        · exact
            ⟨path :: before, tested, after, by rw [split]; rfl, testedRun⟩
      · intro described
        obtain ⟨before, tested, after, split, testedRun⟩ := described
        cases before with
        | nil =>
            injection split with samePath _
            subst samePath
            left
            simp only [List.nil_append, Watcher.tell_cons, Watcher.tell_nil,
              examined] at testedRun
            cases testedRun
            rfl
        | cons first others =>
            injection split with samePath restSplit
            subst samePath
            exact Or.inr ⟨others, tested, after, restSplit, testedRun⟩

theorem violations_sublist
    {violations : List Violation}
    (examines : Examines root watcher world paths told outcome final)
    (ended : outcome = .ok violations) :
    (violations.map Violation.path).Sublist paths := by
  induction examines generalizing violations with
  | finished =>
      cases ended
      exact List.Sublist.slnil
  | stopped _ => cases ended
  | @judged _ _ path _ _ verdict _ examined _ inductionHypothesis =>
      obtain ⟨later, laterEnded, joined⟩ := map_eq_ok_iff.1 ended
      have laterSublist := inductionHypothesis laterEnded
      obtain ⟨_, _, _, either⟩ := FileTree.examine_eq_ok_iff.1 examined
      rw [← joined, List.map_append]
      rcases either with ⟨_, violates⟩ | ⟨_, clean⟩
      · rw [violates]
        exact laterSublist.cons_cons path
      · rw [clean]
        exact laterSublist.cons path

theorem before_eq_of_nodup
    {before after outer inner : List Path} {path : Path}
    (distinct : paths.Nodup) (split : paths = before ++ path :: after)
    (again : paths = outer ++ path :: inner) :
    before = outer := by
  rw [split, List.nodup_middle, List.nodup_cons, List.mem_append, not_or]
    at distinct
  obtain ⟨notBefore, notAfter⟩ := distinct.1
  exact
    ((List.append_cons_inj_of_notMem notBefore notAfter).1
      (split.symm.trans again)).1

/-- In a run that was completed, the candidate at a place is a violation when
its file is without its header at the time when the watcher is told of it. -/
theorem judged_at
    {violations : List Violation}
    (examines : Examines root watcher world paths told outcome final)
    (ended : outcome = .ok violations) (distinct : paths.Nodup)
    {before : List Path} {path : Path} {after : List Path}
    (split : paths = before ++ path :: after) :
    ∃ bytes,
      (watcher.tell world (before ++ [path])).2.read (root.join path) =
          .ok bytes ∧
        (Category.ofPath path).Decodes bytes ∧
          ∀ category,
            ⟨path, category⟩ ∈ violations ↔
              category = Category.ofPath path ∧
                (Category.ofPath path).Violates bytes := by
  obtain ⟨verdict, examined⟩ :=
    examines.exists_verdict ((examines.told_eq ended).trans split)
      (Or.inr ⟨violations, ended⟩)
  obtain ⟨bytes, read, decodes, either⟩ :=
    FileTree.examine_eq_ok_iff.1 examined
  refine ⟨bytes, read, decodes, ?_⟩
  -- The path stands at one place only, so the verdict there is the only one.
  have listed (violation : Violation) (same : violation.path = path) :
      violation ∈ violations ↔ verdict = some violation := by
    rw [examines.mem_violations_iff ended]
    constructor
    · intro described
      obtain ⟨outer, tested, inner, again, testedRun⟩ := described
      have samePath : tested = path := by
        rw [← same, (FileTree.examine_eq_some_iff.1 testedRun).1]
      subst samePath
      rw [← before_eq_of_nodup distinct split again, examined] at testedRun
      cases testedRun
      rfl
    · intro found
      rw [found] at examined
      exact ⟨before, path, after, split, examined⟩
  intro category
  rw [listed ⟨path, category⟩ rfl]
  rcases either with ⟨violates, found⟩ | ⟨clean, found⟩
  · simp [found, violates, eq_comm]
  · simp [found, clean]

end Examines

section Audits

variable
  {settings : Settings} {watched : state} {tree : FileTree}

theorem audit_of_lost
    {failure : Failure}
    (lost : tree.candidates settings = .error failure) :
    audit settings watcher watched tree =
      ⟨.error failure, watched, tree, tree.searchLog settings⟩ := by
  simp only [audit, lost]

theorem toldPaths_of_error
    {failure : Failure}
    (lost : tree.candidates settings = .error failure) :
    toldPaths settings watcher watched tree = [] := by
  rw [toldPaths, audit_of_lost lost]

/-- The violations in the order in which they are found are in the order of
reports already. -/
theorem increasing_gathered
    {candidates : List Path} {world : state × FileTree}
    {violations : List Violation}
    (increasing : OrderedSet.Increasing candidates)
    (gathered : (gather root watcher world candidates).1 = .ok violations) :
    OrderedSet.Increasing violations := by
  obtain ⟨told, examines, _⟩ :=
    gather_examines root watcher candidates [] world.1 world.2
  have paths :
      OrderedSet.Increasing (violations.map Violation.path) :=
    increasing.sublist (examines.violations_sublist gathered)
  refine (List.pairwise_map.1 paths).imp ?_
  intro left right less
  rw [Violation.compare_eq, less]
  rfl

/-- The report of an audit counts all candidates and holds the violations as
they were found. -/
theorem exists_audit_eq
    (watcher : Watcher state) (watched : state) {candidates : List Path}
    (found : tree.candidates settings = .ok candidates) :
    ∃ log,
      audit settings watcher watched tree =
        ⟨(gather settings.root watcher (watched, tree) candidates).1.map
            (Report.ofViolations settings.root candidates.length),
          (gather settings.root watcher (watched, tree) candidates).2.1,
          (gather settings.root watcher (watched, tree) candidates).2.2,
          log⟩ := by
  have increasing := FileTree.increasing_candidates found
  simp only [audit, found]
  generalize tree.searchLog settings ++
    [.checking settings.root candidates.length] = log
  cases gathered :
      gather settings.root watcher (watched, tree) candidates with
  | mk outcome final =>
      obtain ⟨left, ended⟩ :=
        @examineAll_of_gather _ _ _ candidates { watched, tree, log } _ _
          gathered
      rw [← left]
      cases outcome with
      | error failure =>
          rw [ended]
          exact ⟨_, rfl⟩
      | ok violations =>
          obtain ⟨succeeded, counted, inserted⟩ := ended
          have sorted : OrderedSet.Increasing violations :=
            increasing_gathered increasing (congrArg Prod.fst gathered)
          rw [OrderedSet.insertAll_of_increasing sorted] at inserted
          rw [succeeded]
          simp only [Progress.result, Progress.report, counted, inserted,
            Nat.zero_add]
          exact ⟨_, rfl⟩

theorem outcome_eq_gather
    {candidates : List Path}
    (found : tree.candidates settings = .ok candidates) :
    (audit settings watcher watched tree).outcome =
      (gather settings.root watcher (watched, tree) candidates).1.map
        (Report.ofViolations settings.root candidates.length) := by
  obtain ⟨_, same⟩ := exists_audit_eq watcher watched found
  rw [same]

theorem toldPaths_eq_gather
    {candidates : List Path}
    (found : tree.candidates settings = .ok candidates) :
    toldPaths settings watcher watched tree =
      (gather settings.root watcher.logged (([], watched), tree)
        candidates).2.1.1 := by
  obtain ⟨_, same⟩ := exists_audit_eq watcher.logged ([], watched) found
  rw [toldPaths, same]

/-- Keeping the list of what was told changes nothing else. -/
theorem audit_logged
    (settings : Settings) (watcher : Watcher state)
    (watched : state) (tree : FileTree) :
    let logged := audit settings watcher.logged ([], watched) tree
    let result := audit settings watcher watched tree
    logged.outcome = result.outcome ∧
      logged.watched =
        (toldPaths settings watcher watched tree, result.watched) ∧
      logged.tree = result.tree := by
  unfold toldPaths
  cases found : tree.candidates settings with
  | error failure =>
      simp only [audit_of_lost found, and_self]
  | ok candidates =>
      obtain ⟨told, _, same⟩ :=
        gather_examines settings.root watcher candidates [] watched tree
      obtain ⟨_, logged⟩ := exists_audit_eq watcher.logged ([], watched) found
      obtain ⟨_, plain⟩ := exists_audit_eq watcher watched found
      simp only [logged, plain, same, and_self]

theorem exists_examines
    (watcher : Watcher state) (watched : state) {candidates : List Path}
    (found : tree.candidates settings = .ok candidates) :
    ∃ outcome final log,
      Examines settings.root watcher (watched, tree) candidates
          (toldPaths settings watcher watched tree) outcome final ∧
        audit settings watcher watched tree =
          ⟨outcome.map
              (Report.ofViolations settings.root candidates.length),
            final.1, final.2, log⟩ := by
  obtain ⟨told, examines, same⟩ :=
    gather_examines settings.root watcher candidates [] watched tree
  obtain ⟨log, plain⟩ := exists_audit_eq watcher watched found
  have toldSame : toldPaths settings watcher watched tree = told := by
    rw [toldPaths_eq_gather found, same]
    rfl
  rw [toldSame]
  exact ⟨_, _, log, examines, plain⟩

/-- What the watcher keeps, the audit keeps. -/
theorem holds_after_audit
    {Holds : state × FileTree → Prop}
    (kept : ∀ world path, Holds world → Holds (watcher world path))
    (holds : Holds (watched, tree)) :
    Holds
      ((audit settings watcher watched tree).watched,
        (audit settings watcher watched tree).tree) := by
  cases found : tree.candidates settings with
  | error failure =>
      rw [audit_of_lost found]
      exact holds
  | ok candidates =>
      obtain ⟨outcome, final, log, examines, same⟩ :=
        exists_examines watcher watched found
      have keptAll (told : List Path) :
          ∀ world, Holds world → Holds (watcher.tell world told) := by
        induction told with
        | nil => exact fun _ => id
        | cons path rest inductionHypothesis =>
            intro world now
            exact inductionHypothesis _ (kept world path now)
      rw [same, examines.final_eq]
      exact keptAll _ _ holds

theorem exists_candidates_of_report
    {report : Report}
    (reported : (audit settings watcher watched tree).outcome = .ok report) :
    ∃ candidates, tree.candidates settings = .ok candidates := by
  cases found : tree.candidates settings with
  | error failure =>
      rw [audit_of_lost found] at reported
      cases reported
  | ok candidates => exact ⟨candidates, rfl⟩

/-- Runs that are the same when the candidates are found have the same
report, if any. -/
theorem reported_iff_of_found
    {otherState : Type} {other : Watcher otherState}
    {otherWatched : otherState} {otherTree : FileTree}
    {otherSettings : Settings}
    (sameFound :
      ∀ candidates,
        tree.candidates settings = .ok candidates ↔
          otherTree.candidates otherSettings = .ok candidates)
    (sameOutcome :
      (∃ candidates, tree.candidates settings = .ok candidates) →
        (audit settings watcher watched tree).outcome =
          (audit otherSettings other otherWatched otherTree).outcome)
    (report : Report) :
    (audit settings watcher watched tree).outcome = .ok report ↔
      (audit otherSettings other otherWatched otherTree).outcome =
        .ok report := by
  constructor
  · intro reported
    rw [← sameOutcome (exists_candidates_of_report reported)]
    exact reported
  · intro reported
    obtain ⟨candidates, found⟩ := exists_candidates_of_report reported
    rw [sameOutcome ⟨candidates, (sameFound candidates).2 found⟩]
    exact reported

theorem outcome_of_first_failure
    {path : Path} {rest : List Path} {failure : Failure}
    (found : tree.candidates settings = .ok (path :: rest))
    (examined :
      (watcher (watched, tree) path).2.examine settings.root path =
        .error failure) :
    (audit settings watcher watched tree).outcome = .error failure := by
  rw [outcome_eq_gather found, gather_of_error examined]
  rfl

end Audits

/-- An audit tells the watcher of a beginning of the candidates that the tree
had at first, whatever the watcher changes.  It has a report only if all
candidates were told; each was then judged on the tree that the watcher had
left.  A failure to read or decode is one of the candidate told last, and with
any other failure no candidate is told. -/
theorem audit_under_changes
    (settings : Settings) (watcher : Watcher state)
    (watched : state) (tree : FileTree) :
    let told := toldPaths settings watcher watched tree
    let result := audit settings watcher watched tree
    let treeAfter := fun paths => (watcher.tell (watched, tree) paths).2
    (result.watched, result.tree) = watcher.tell (watched, tree) told ∧
      (match tree.candidates settings with
        | .ok candidates =>
            OrderedSet.Increasing candidates ∧ told <+: candidates
        | .error failure => told = [] ∧ result.outcome = .error failure) ∧
      (∀ before path later,
        told = before ++ path :: later → later ≠ [] →
          ∃ bytes,
            (treeAfter (before ++ [path])).read
                (settings.root.join path) = .ok bytes ∧
              (Category.ofPath path).Decodes bytes) ∧
      match result.outcome with
      | .ok report =>
          tree.candidates settings = .ok told ∧
            report.root = settings.root ∧
            report.processedFiles = told.length ∧
            (report.ok = true ↔ report.violations = []) ∧
            report.violationPaths.Sublist told ∧
            ∀ before path after,
              told = before ++ path :: after →
                ∃ bytes,
                  (treeAfter (before ++ [path])).read
                      (settings.root.join path) = .ok bytes ∧
                    (Category.ofPath path).Decodes bytes ∧
                      ∀ category,
                        ⟨path, category⟩ ∈ report.violations ↔
                          category = Category.ofPath path ∧
                            (Category.ofPath path).Violates bytes
      | .error (.unreadable path cause) =>
          ∃ before last,
            told = before ++ [last] ∧ path = settings.root.join last ∧
              result.tree.read path = .error cause
      | .error (.notUtf8 path) =>
          ∃ before bytes,
            told = before ++ [path] ∧
              result.tree.read (settings.root.join path) = .ok bytes ∧
                ¬ (Category.ofPath path).Decodes bytes
      | .error failure =>
          told = [] ∧ tree.candidates settings = .error failure := by
  intro told result treeAfter
  cases found : tree.candidates settings with
  | error failure =>
      have nothing : told = [] := toldPaths_of_error found
      have same : result = ⟨.error failure, watched, tree, _⟩ :=
        audit_of_lost found
      rw [same, nothing]
      refine ⟨rfl, ⟨rfl, rfl⟩, ?_, ?_⟩
      · intro before path later split _
        cases before <;> cases split
      · rcases FileTree.failure_of_candidates_eq_error found with
          rfl | ⟨cause, rfl⟩ | ⟨cause, rfl⟩ <;>
        exact ⟨rfl, rfl⟩
  | ok candidates =>
      obtain ⟨outcome, final, log, examines, same⟩ :=
        exists_examines watcher watched found
      have increasing := FileTree.increasing_candidates found
      change result = _ at same
      rw [same]
      refine ⟨examines.final_eq, ⟨increasing, examines.told_begins⟩, ?_, ?_⟩
      · intro before path later split following
        obtain ⟨verdict, examined⟩ :=
          examines.exists_verdict split (Or.inl following)
        obtain ⟨bytes, read, decodes, _⟩ :=
          FileTree.examine_eq_ok_iff.1 examined
        exact ⟨bytes, read, decodes⟩
      · cases ended : outcome with
        | ok violations =>
            have toldAll : told = candidates := examines.told_eq ended
            have counted : candidates.length = told.length := by
              rw [toldAll]
            refine ⟨congrArg _ toldAll.symm, rfl, counted,
              List.isEmpty_iff, ?_, ?_⟩
            · rw [toldAll]
              exact examines.violations_sublist ended
            · intro before path after split
              exact
                examines.judged_at ended increasing.nodup
                  (toldAll.symm.trans split)
        | error failure =>
            obtain ⟨before, last, split, examined⟩ :=
              examines.exists_last ended
            rcases FileTree.examine_eq_error_iff.1 examined with
              ⟨cause, unread, rfl⟩ | ⟨bytes, read, undecodable, rfl⟩
            · exact ⟨before, last, split, rfl, unread⟩
            · exact ⟨before, bytes, split, read, undecodable⟩

end HeaderAudit
