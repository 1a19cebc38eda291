import HeaderAudit.Proofs.Audit.Run

/-! When the watcher keeps the tree, every candidate leads to the file that it
was found as. Two things can keep it from being read: the path below the root
is too long, which is another spelling than the one that was looked up, or the
file is unreadable. -/

namespace HeaderAudit

/-- The watcher leaves the tree as it is. -/
def Watcher.KeepsTree {state : Type} (watcher : Watcher state) : Prop :=
  ∀ world path, (watcher world path).2 = world.2

theorem Watcher.KeepsTree.tell_eq
    {state : Type} {watcher : Watcher state} (quiet : watcher.KeepsTree)
    (paths : List Path) :
    ∀ world, (watcher.tell world paths).2 = world.2 := by
  induction paths with
  | nil =>
      intro world
      rfl
  | cons path rest inductionHypothesis =>
      intro world
      rw [tell_cons, inductionHypothesis, quiet]

variable
  {state : Type} {settings : Settings} {watcher : Watcher state}
  {tree : FileTree} {candidates : List Path} {path : Path}

namespace FileTree

/-! ## Reading a candidate -/

theorem exists_yields_of_candidate
    (found : tree.candidates settings = .ok candidates)
    (member : path ∈ candidates) :
    ∃ source, tree.Yields settings source path :=
  ((mem_candidates_iff_yields found path).1 member).2

theorem rootThere_of_candidates
    (found : tree.candidates settings = .ok candidates) :
    tree.isDirectory settings.root = true :=
  (candidates_eq_ok_iff.1 found).1

/-- The path leads to something that is unreadable. -/
def Refuses (tree : FileTree) (path : Path) : Prop :=
  ∃ location node,
    tree.find path = .ok (location, node) ∧ location ∈ tree.unreadable

theorem not_refuses_of_unreadable_eq_nil
    (readable : tree.unreadable = []) (path : Path) :
    ¬ tree.Refuses path := by
  intro refuses
  obtain ⟨_, _, _, refused⟩ := refuses
  rw [readable] at refused
  cases refused

/-- A candidate that is not too long leads to a file, which is read unless it is
unreadable. -/
theorem read_candidate_of_short
    (found : tree.candidates settings = .ok candidates)
    (member : path ∈ candidates)
    (short : (settings.root.join path).bytes.length ≤ longestPath) :
    (tree.Refuses (settings.root.join path) ∧
        tree.read (settings.root.join path) = .error .denied) ∨
      (¬ tree.Refuses (settings.root.join path) ∧
        ∃ bytes, tree.read (settings.root.join path) = .ok bytes) := by
  obtain ⟨source, yields⟩ := exists_yields_of_candidate found member
  obtain ⟨location, content, _, joinFound⟩ :=
    yields.find_join_eq (rootThere_of_candidates found) short
  rw [read_of_find_file joinFound]
  by_cases refused : location ∈ tree.unreadable
  · rw [if_pos refused]
    exact Or.inl ⟨⟨location, _, joinFound, refused⟩, rfl⟩
  · rw [if_neg refused]
    refine Or.inr ⟨?_, content, rfl⟩
    intro refuses
    obtain ⟨_, _, again, refusedAgain⟩ := refuses
    rw [joinFound] at again
    cases again
    exact refused refusedAgain

theorem exists_read_candidate
    (found : tree.candidates settings = .ok candidates)
    (member : path ∈ candidates)
    (short : (settings.root.join path).bytes.length ≤ longestPath)
    (permitted : ¬ tree.Refuses (settings.root.join path)) :
    ∃ bytes, tree.read (settings.root.join path) = .ok bytes := by
  rcases read_candidate_of_short found member short with
    ⟨refuses, _⟩ | ⟨_, readBytes⟩
  · exact absurd refuses permitted
  · exact readBytes

theorem read_candidate_of_overlong
    (found : tree.candidates settings = .ok candidates)
    (member : path ∈ candidates)
    (overlong : longestPath < (settings.root.join path).bytes.length) :
    tree.read (settings.root.join path) = .error .nameTooLong := by
  obtain ⟨source, yields⟩ := exists_yields_of_candidate found member
  have lost :=
    yields.find_join_of_overlong (rootThere_of_candidates found) overlong
  unfold read
  rw [lost]

theorem short_of_candidate
    (found : tree.candidates settings = .ok candidates)
    (spelled :
      settings.root.isAbsolute = false ∨
        ∀ directory ∈ settings.includeDirs, directory.isAbsolute = false)
    (member : path ∈ candidates) :
    (settings.root.join path).bytes.length ≤ longestPath := by
  obtain ⟨source, yields⟩ := exists_yields_of_candidate found member
  obtain ⟨location, content, sourceFound⟩ := isFile_iff.1 yields.isFile
  obtain ⟨sourceAccepted, _⟩ :=
    locate_eq_ok_iff.1 (find_eq_ok_iff.1 sourceFound).1
  calc
    (settings.root.join path).bytes.length ≤ source.bytes.length :=
      yields.length_join_le (rootThere_of_candidates found) spelled
    _ ≤ longestPath := sourceAccepted.2.2

theorem short_of_read_candidate
    {bytes : List UInt8}
    (found : tree.candidates settings = .ok candidates)
    (member : path ∈ candidates)
    (readBytes : tree.read (settings.root.join path) = .ok bytes) :
    (settings.root.join path).bytes.length ≤ longestPath := by
  by_contra long
  rw [read_candidate_of_overlong found member (Nat.lt_of_not_le long)]
    at readBytes
  cases readBytes

theorem permitted_of_read_candidate
    {bytes : List UInt8}
    (found : tree.candidates settings = .ok candidates)
    (member : path ∈ candidates)
    (readBytes : tree.read (settings.root.join path) = .ok bytes) :
    ¬ tree.Refuses (settings.root.join path) := by
  have short := short_of_read_candidate found member readBytes
  rcases read_candidate_of_short found member short with
    ⟨_, denied⟩ | ⟨permitted, _⟩
  · rw [denied] at readBytes
    cases readBytes
  · exact permitted

/-- Why a candidate cannot be read. -/
inductive Withholds (tree : FileTree) (path : Path) : LookupError → Prop
  | overlong :
      longestPath < path.bytes.length → Withholds tree path .nameTooLong
  | denied :
      path.bytes.length ≤ longestPath → tree.Refuses path →
        Withholds tree path .denied

theorem withholds_of_unread_candidate
    {cause : LookupError}
    (found : tree.candidates settings = .ok candidates)
    (member : path ∈ candidates)
    (unread : tree.read (settings.root.join path) = .error cause) :
    tree.Withholds (settings.root.join path) cause := by
  rcases Nat.lt_or_ge longestPath (settings.root.join path).bytes.length with
    overlong | short
  · rw [read_candidate_of_overlong found member overlong] at unread
    cases unread
    exact .overlong overlong
  · rcases read_candidate_of_short found member short with
      ⟨refuses, denied⟩ | ⟨_, bytes, readBytes⟩
    · rw [denied] at unread
      cases unread
      exact .denied short refuses
    · rw [readBytes] at unread
      cases unread

/-- The candidate can be read and, if it is governed, decoded. -/
structure Completes (tree : FileTree) (root path : Path) : Prop where
  short : (root.join path).bytes.length ≤ longestPath
  permitted : ¬ tree.Refuses (root.join path)
  decodes :
    ∀ bytes,
      tree.read (root.join path) = .ok bytes →
        (Category.ofPath path).Decodes bytes

/-- How a run ends at a candidate that does not complete. -/
inductive EndsAt (tree : FileTree) (root path : Path) : Failure → Prop
  | unread {cause : LookupError} :
      tree.Withholds (root.join path) cause →
      EndsAt tree root path (.unreadable (root.join path) cause)
  | undecodable {bytes : List UInt8} :
      tree.read (root.join path) = .ok bytes →
      ¬ (Category.ofPath path).Decodes bytes →
      EndsAt tree root path (.notUtf8 path)

/-- The paths told are those up to the first that cannot be examined, which
gives its failure to the outcome. -/
def ExaminesUntilFailure {result : Type}
    (tree : FileTree) (root : Path) (paths told : List Path) :
    Except Failure result → Prop
  | .ok _ =>
      told = paths ∧
        ∀ path ∈ paths, ∃ verdict, tree.examine root path = .ok verdict
  | .error failure =>
      ∃ before path after,
        paths = before ++ path :: after ∧
          told = before ++ [path] ∧
          (∀ earlier ∈ before,
            ∃ verdict, tree.examine root earlier = .ok verdict) ∧
          tree.examine root path = .error failure

theorem completes_of_examine_eq_ok
    {verdict : Option Violation}
    (found : tree.candidates settings = .ok candidates)
    (member : path ∈ candidates)
    (examined : tree.examine settings.root path = .ok verdict) :
    tree.Completes settings.root path := by
  obtain ⟨bytes, readBytes, decodes, _⟩ := examine_eq_ok_iff.1 examined
  refine
    ⟨short_of_read_candidate found member readBytes,
      permitted_of_read_candidate found member readBytes, ?_⟩
  intro tested readTested
  rw [readBytes] at readTested
  cases readTested
  exact decodes

theorem Withholds.not_completes
    {root : Path} {cause : LookupError}
    (withholds : tree.Withholds (root.join path) cause) :
    ¬ tree.Completes root path := by
  intro completes
  cases withholds with
  | overlong overlong => exact Nat.not_le_of_lt overlong completes.short
  | denied _ refuses => exact completes.permitted refuses

theorem failure_of_examine_candidate
    {failure : Failure}
    (found : tree.candidates settings = .ok candidates)
    (member : path ∈ candidates)
    (examined : tree.examine settings.root path = .error failure) :
    ¬ tree.Completes settings.root path ∧
      tree.EndsAt settings.root path failure := by
  rcases examine_eq_error_iff.1 examined with
    ⟨cause, unread, rfl⟩ | ⟨bytes, readBytes, undecodable, rfl⟩
  · have withholds := withholds_of_unread_candidate found member unread
    exact ⟨withholds.not_completes, .unread withholds⟩
  · exact
      ⟨fun completes => undecodable (completes.decodes bytes readBytes),
        .undecodable readBytes undecodable⟩

end FileTree

/-! ## What becomes of the run -/

namespace Examines

variable
  {told : List Path} {outcome : Except Failure (List Violation)}
  {world final : state × FileTree}

/-- On a tree that is kept, the watcher is told of every candidate up to the
first that cannot be examined. -/
theorem examined_of_keepsTree
    {root : Path} {paths : List Path} (quiet : watcher.KeepsTree)
    (examines : Examines root watcher world paths told outcome final) :
    world.2.ExaminesUntilFailure root paths told outcome := by
  induction examines with
  | finished => exact ⟨rfl, nofun⟩
  | @stopped world path rest failure examined =>
      rw [quiet] at examined
      exact ⟨[], path, rest, rfl, rfl, nofun, examined⟩
  | @judged world _ path rest told verdict outcome examined _
      inductionHypothesis =>
      rw [quiet] at examined inductionHypothesis
      cases outcome with
      | ok later =>
          obtain ⟨same, restExamined⟩ := inductionHypothesis
          exact
            ⟨by rw [same],
              List.forall_mem_cons.2 ⟨⟨verdict, examined⟩, restExamined⟩⟩
      | error failure =>
          obtain ⟨before, last, after, split, toldSplit, earlier, lastFails⟩ :=
            inductionHypothesis
          exact
            ⟨path :: before, last, after, by rw [split]; rfl,
              by rw [toldSplit]; rfl,
              List.forall_mem_cons.2 ⟨⟨verdict, examined⟩, earlier⟩,
              lastFails⟩

theorem completed_of_keepsTree
    {violations : List Violation} (quiet : watcher.KeepsTree)
    (found : world.2.candidates settings = .ok candidates)
    (examines :
      Examines settings.root watcher world candidates told outcome final)
    (ended : outcome = .ok violations) :
    (∀ path ∈ candidates, world.2.Completes settings.root path) ∧
      ∀ violation,
        violation ∈ violations ↔
          violation.path ∈ candidates ∧
            violation.category = Category.ofPath violation.path ∧
              ∃ bytes,
                world.2.read (settings.root.join violation.path) =
                    .ok bytes ∧
                  violation.category.Violates bytes := by
  subst ended
  constructor
  · intro path member
    obtain ⟨_, examined⟩ := examines.examined_of_keepsTree quiet
    obtain ⟨verdict, pathExamined⟩ := examined path member
    exact FileTree.completes_of_examine_eq_ok found member pathExamined
  · intro violation
    rw [examines.mem_violations_iff rfl]
    constructor
    · intro described
      obtain ⟨before, path, after, split, examined⟩ := described
      rw [quiet.tell_eq] at examined
      obtain ⟨rfl, bytes, readBytes, violates⟩ :=
        FileTree.examine_eq_some_iff.1 examined
      refine ⟨?_, rfl, bytes, readBytes, violates⟩
      rw [split]
      exact List.mem_append_cons_self
    · intro described
      obtain ⟨member, sameCategory, bytes, readBytes, violates⟩ := described
      obtain ⟨before, after, split⟩ := List.append_of_mem member
      refine ⟨before, violation.path, after, split, ?_⟩
      rw [quiet.tell_eq, FileTree.examine_eq_some_iff, ← sameCategory]
      exact ⟨rfl, bytes, readBytes, violates⟩

/-- A run that was not completed ends at the first candidate that does not
complete. -/
theorem stopped_of_keepsTree
    {failure : Failure} (quiet : watcher.KeepsTree)
    (found : world.2.candidates settings = .ok candidates)
    (examines :
      Examines settings.root watcher world candidates told outcome final)
    (ended : outcome = .error failure) :
    ∃ before path after,
      candidates = before ++ path :: after ∧
        told = before ++ [path] ∧
        (∀ earlier ∈ before, world.2.Completes settings.root earlier) ∧
        ¬ world.2.Completes settings.root path ∧
        world.2.EndsAt settings.root path failure := by
  subst ended
  obtain ⟨before, path, after, split, toldSplit, examinedBefore, examined⟩ :=
    examines.examined_of_keepsTree quiet
  have member : path ∈ candidates := by
    rw [split]
    exact List.mem_append_cons_self
  refine ⟨before, path, after, split, toldSplit, ?_,
    FileTree.failure_of_examine_candidate found member examined⟩
  intro earlier earlierMember
  obtain ⟨verdict, earlierExamined⟩ := examinedBefore earlier earlierMember
  have earlierCandidate : earlier ∈ candidates := by
    rw [split]
    exact List.mem_append_left _ earlierMember
  exact
    FileTree.completes_of_examine_eq_ok found earlierCandidate
      earlierExamined

end Examines

/-- Whatever path a file was found by, the candidate below the root leads to
that file; so a run on a tree that is kept fails to read a candidate only when
the file is unreadable. -/
theorem candidate_leads_to_its_file
    (found : tree.candidates settings = .ok candidates)
    (short :
      ∀ path ∈ candidates,
        (settings.root.join path).bytes.length ≤ longestPath) :
    (∀ path ∈ candidates,
        (∃ source, tree.Yields settings source path) ∧
          ∀ source,
            tree.Yields settings source path →
              ∃ location content,
                tree.find source = .ok (location, .file content) ∧
                  tree.find (settings.root.join path) =
                    .ok (location, .file content)) ∧
      ∀ (watcher : Watcher state), watcher.KeepsTree →
        ∀ watched path cause,
          (audit settings watcher watched tree).outcome =
              .error (.unreadable path cause) →
            cause = .denied ∧
              ∃ candidate ∈ candidates,
                path = settings.root.join candidate ∧ tree.Refuses path := by
  have rootThere := FileTree.rootThere_of_candidates found
  constructor
  · intro path member
    refine ⟨FileTree.exists_yields_of_candidate found member, ?_⟩
    intro source yields
    exact yields.find_join_eq rootThere (short path member)
  · intro watcher quiet watched path cause failed
    obtain ⟨outcome, final, log, examines, same⟩ :=
      exists_examines watcher watched found
    rw [same] at failed
    cases ended : outcome with
    | ok violations =>
        rw [ended] at failed
        cases failed
    | error failure =>
        rw [ended] at failed
        cases failed
        obtain ⟨before, last, after, split, _, _, _, endsThere⟩ :=
          examines.stopped_of_keepsTree quiet found ended
        have member : last ∈ candidates := by
          rw [split]
          exact List.mem_append_cons_self
        cases endsThere with
        | unread withholds =>
            cases withholds with
            | overlong overlong =>
                exact absurd (short last member) (Nat.not_le_of_lt overlong)
            | denied _ refuses =>
                exact ⟨rfl, last, member, rfl, refuses⟩

theorem linkedTree_candidate_leads_to_its_file :
    FileTree.linkedTree.candidates FileTree.linkedSettings =
        .ok [Path.ofString "lib/a.cpp", Path.ofString "lib/deep/b.hpp"] ∧
      (∀ path ∈ [Path.ofString "lib/a.cpp", Path.ofString "lib/deep/b.hpp"],
        (FileTree.linkedSettings.root.join path).bytes.length ≤
          longestPath) ∧
      ∀ source,
        FileTree.linkedTree.Yields FileTree.linkedSettings source
            (Path.ofString "lib/deep/b.hpp") →
          ∃ location content,
            FileTree.linkedTree.find source =
                .ok (location, .file content) ∧
              FileTree.linkedTree.find
                  (FileTree.linkedSettings.root.join
                    (Path.ofString "lib/deep/b.hpp")) =
                .ok (location, .file content) := by
  have short :
      ∀ path ∈
        [Path.ofString "lib/a.cpp", Path.ofString "lib/deep/b.hpp"],
        (FileTree.linkedSettings.root.join path).bytes.length ≤
          longestPath := by
    decide +kernel
  have leads :=
    (@candidate_leads_to_its_file Unit _ _ _
      FileTree.linkedTree_candidates short).1
  have member :
      Path.ofString "lib/deep/b.hpp" ∈
        [Path.ofString "lib/a.cpp", Path.ofString "lib/deep/b.hpp"] :=
    List.mem_cons_of_mem _ List.mem_cons_self
  exact
    ⟨FileTree.linkedTree_candidates, short, (leads _ member).2⟩

/-- A tree with one file, which is not governed. -/
def overlongTree : FileTree :=
  FileTree.empty.editAll
    [.file (Path.ofString "/tmp/overlong-root/lib/a.txt") []]

/-- A root that is spelled with so many slashes that nothing can be joined to
it, and a watched directory that is found without the root. -/
def overlongSettings : Settings where
  root :=
    ⟨List.replicate 4073 slash ++
      (Path.ofString "tmp/overlong-root").bytes⟩
  includeDirs := [Path.ofString "/tmp/overlong-root/lib"]
  includeFiles := []
  exclude := []
  followLinks := false
  maxDepth := 64

theorem overlongTree_candidates :
    overlongTree.candidates overlongSettings =
      .ok [Path.ofString "lib/a.txt"] := by
  decide +kernel

theorem overlongTree_outcome :
    (audit overlongSettings (fun world _ => world) () overlongTree).outcome =
      .error
        (.unreadable
          (overlongSettings.root.join (Path.ofString "lib/a.txt"))
          .nameTooLong) := by
  have overlong :
      longestPath <
        (overlongSettings.root.join
          (Path.ofString "lib/a.txt")).bytes.length := by
    decide +kernel
  have unread :=
    FileTree.read_candidate_of_overlong overlongTree_candidates
      List.mem_cons_self overlong
  exact
    outcome_of_first_failure overlongTree_candidates
      (FileTree.examine_eq_error_iff.2 (Or.inl ⟨_, unread, rfl⟩))

/-- A tree with one file, which is unreadable. -/
def sealedTree : FileTree :=
  let tree :=
    FileTree.empty.editAll [.file (Path.ofString "lib/a.txt") []]
  { tree with
    unreadable :=
      (tree.locate (Path.ofString "lib/a.txt")).toOption.toList }

/-- Settings that watch the directory of the file. -/
def sealedSettings : Settings where
  root := Path.ofString "."
  includeDirs := [Path.ofString "lib"]
  includeFiles := []
  exclude := []
  followLinks := false
  maxDepth := 64

/-- Both runs find a file by a path that is not too long and fail to read it:
the one because it is unreadable, the other because its path below the root is
too long. -/
theorem candidates_fail_to_be_read :
    (sealedTree.candidates sealedSettings =
        .ok [Path.ofString "lib/a.txt"] ∧
      sealedTree.isFile
          (sealedSettings.root.join (Path.ofString "lib/a.txt")) = true ∧
      (audit sealedSettings (fun world _ => world) () sealedTree).outcome =
        .error
          (.unreadable
            (sealedSettings.root.join (Path.ofString "lib/a.txt"))
            .denied)) ∧
      overlongTree.candidates overlongSettings =
          .ok [Path.ofString "lib/a.txt"] ∧
        overlongTree.isFile
            (Path.ofString "/tmp/overlong-root/lib/a.txt") = true ∧
        (audit overlongSettings (fun world _ => world) ()
            overlongTree).outcome =
          .error
            (.unreadable
              (overlongSettings.root.join (Path.ofString "lib/a.txt"))
              .nameTooLong) := by
  have denied :
      sealedTree.candidates sealedSettings =
          .ok [Path.ofString "lib/a.txt"] ∧
        sealedTree.isFile
            (sealedSettings.root.join (Path.ofString "lib/a.txt")) = true ∧
        (audit sealedSettings (fun world _ => world) ()
            sealedTree).outcome =
          .error
            (.unreadable
              (sealedSettings.root.join (Path.ofString "lib/a.txt"))
              .denied) := by
    decide +kernel
  exact
    ⟨denied, overlongTree_candidates, by decide +kernel,
      overlongTree_outcome⟩

/-- An audit that keeps the tree completes exactly when every candidate does.
Then the watcher was told of all candidates and the violations are those of
the tree; otherwise it was told of the candidates up to the first that does
not complete. -/
theorem audit_of_keepsTree
    (quiet : watcher.KeepsTree)
    (found : tree.candidates settings = .ok candidates) (watched : state) :
    let told := toldPaths settings watcher watched tree
    let outcome := (audit settings watcher watched tree).outcome
    OrderedSet.Increasing candidates ∧
      (∀ path ∈ candidates,
        (settings.root.join path).bytes.length ≤ longestPath →
          ¬ tree.Refuses (settings.root.join path) →
            ∃ bytes, tree.read (settings.root.join path) = .ok bytes) ∧
      (settings.root.isAbsolute = false ∨
          (∀ directory ∈ settings.includeDirs,
            directory.isAbsolute = false) →
        ∀ path ∈ candidates,
          (settings.root.join path).bytes.length ≤ longestPath) ∧
      ((∃ report, outcome = .ok report) ↔
        ∀ path ∈ candidates, tree.Completes settings.root path) ∧
      match outcome with
      | .ok report =>
          told = candidates ∧
            report.root = settings.root ∧
            report.processedFiles = candidates.length ∧
            OrderedSet.Increasing report.violationPaths ∧
            (∀ violation,
              violation ∈ report.violations ↔
                violation.path ∈ candidates ∧
                  violation.category = Category.ofPath violation.path ∧
                    ∃ bytes,
                      tree.read (settings.root.join violation.path) =
                          .ok bytes ∧
                        violation.category.Violates bytes) ∧
            (report.ok = true ↔ report.violations = [])
      | .error failure =>
          ∃ before path after,
            candidates = before ++ path :: after ∧
              told = before ++ [path] ∧
              (∀ earlier ∈ before,
                tree.Completes settings.root earlier) ∧
              ¬ tree.Completes settings.root path ∧
              tree.EndsAt settings.root path failure := by
  intro told outcome
  have increasing := FileTree.increasing_candidates found
  obtain ⟨ending, final, log, examines, same⟩ :=
    exists_examines watcher watched found
  have outcomeSame :
      outcome =
        ending.map
          (Report.ofViolations settings.root candidates.length) := by
    simp only [outcome, same]
  refine ⟨increasing,
    fun path member => FileTree.exists_read_candidate found member,
    fun spelled path member =>
      FileTree.short_of_candidate found spelled member, ?_⟩
  rw [outcomeSame]
  cases ended : ending with
  | ok violations =>
      obtain ⟨completes, listed⟩ :=
        examines.completed_of_keepsTree quiet found ended
      refine ⟨⟨fun _ => completes, fun _ => ⟨_, rfl⟩⟩,
        examines.told_eq ended, rfl, rfl, ?_, listed, List.isEmpty_iff⟩
      exact increasing.sublist (examines.violations_sublist ended)
  | error failure =>
      have stopped := examines.stopped_of_keepsTree quiet found ended
      refine ⟨⟨?_, ?_⟩, stopped⟩
      · intro reported
        obtain ⟨report, impossible⟩ := reported
        cases impossible
      · intro completes
        obtain ⟨before, path, after, split, _, _, incomplete, _⟩ := stopped
        have member : path ∈ candidates := by
          rw [split]
          exact List.mem_append_cons_self
        exact absurd (completes path member) incomplete

theorem linkedTree_audit_of_keepsTree :
    Watcher.KeepsTree (fun world _ => world : Watcher Unit) ∧
      FileTree.linkedTree.candidates FileTree.linkedSettings =
        .ok [Path.ofString "lib/a.cpp", Path.ofString "lib/deep/b.hpp"] ∧
      ((∃ report,
          (audit FileTree.linkedSettings (fun world _ => world) ()
              FileTree.linkedTree).outcome = .ok report) ↔
        ∀ path ∈
          [Path.ofString "lib/a.cpp", Path.ofString "lib/deep/b.hpp"],
          FileTree.linkedTree.Completes FileTree.linkedSettings.root
            path) := by
  have quiet : Watcher.KeepsTree (fun world _ => world : Watcher Unit) :=
    fun _ _ => rfl
  have whole := audit_of_keepsTree quiet FileTree.linkedTree_candidates ()
  exact ⟨quiet, FileTree.linkedTree_candidates, whole.2.2.2.1⟩

/-- No candidate is governed, and yet the run has no report. -/
theorem overlongTree_audit_unreadable :
    overlongTree.candidates overlongSettings =
        .ok [Path.ofString "lib/a.txt"] ∧
      (Category.ofPath (Path.ofString "lib/a.txt")).isGoverned = false ∧
      (audit overlongSettings (fun world _ => world) ()
          overlongTree).outcome =
        .error
          (.unreadable
            (overlongSettings.root.join (Path.ofString "lib/a.txt"))
            .nameTooLong) :=
  ⟨overlongTree_candidates, by decide +kernel, overlongTree_outcome⟩

end HeaderAudit
