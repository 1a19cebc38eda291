import HeaderAudit.Proofs.Audit.Unchanged
import HeaderAudit.Proofs.Candidates.Rerooted

/-! Runs that differ in the spelling of the root. A watcher may change the
tree, as long as both roots still lead to one directory whenever a candidate is
read. -/

namespace HeaderAudit

variable {state : Type} {watcher : Watcher state} {first second : Path}

namespace FileTree

variable {tree : FileTree} {settings : Settings} {path : Path}

theorem LeadTogether.read_join
    {bytes : List UInt8} (together : tree.LeadTogether first second)
    (relative : path.isAbsolute = false)
    (limits : tree.WithinLimits (second.join path))
    (read : tree.read (first.join path) = .ok bytes) :
    tree.read (second.join path) = .ok bytes := by
  unfold FileTree.read at read ⊢
  cases found : tree.find (first.join path) with
  | error cause =>
      rw [found] at read
      cases read
  | ok reached =>
      rw [together.find_join relative limits found]
      rwa [found] at read

theorem LeadTogether.examine_eq_ok
    {verdict : Option Violation} (together : tree.LeadTogether first second)
    (relative : path.isAbsolute = false)
    (limits : tree.WithinLimits (second.join path))
    (examined : tree.examine first path = .ok verdict) :
    tree.examine second path = .ok verdict := by
  obtain ⟨bytes, read, judged⟩ := examine_eq_ok_iff.1 examined
  exact
    examine_eq_ok_iff.2
      ⟨bytes, together.read_join relative limits read, judged⟩

theorem isAbsolute_of_candidate
    {candidates : List Path} (relative : settings.IsRelative)
    (found : tree.candidates settings = .ok candidates)
    (member : path ∈ candidates) :
    path.isAbsolute = false := by
  obtain ⟨source, yields⟩ := exists_yields_of_candidate found member
  obtain ⟨base, baseMember, names, rfl⟩ :=
    yields.exists_below (rootThere_of_candidates found) relative.dirs
  rw [Path.isAbsolute_normalForm, Path.isAbsolute_below]
  rcases List.mem_append.1 baseMember with watched | named
  · exact relative.dirs base watched
  · exact relative.files base named

theorem withinLimits_of_candidate
    {candidates : List Path} (relative : settings.IsRelative)
    (found : tree.candidates settings = .ok candidates)
    (member : path ∈ candidates) :
    tree.WithinLimits (settings.root.join path) := by
  obtain ⟨_, yields⟩ := exists_yields_of_candidate found member
  obtain ⟨_, _, _, joinFound⟩ :=
    yields.find_join_eq (rootThere_of_candidates found)
      (short_of_candidate found (Or.inr relative.dirs) member)
  exact .of_locate (find_eq_ok_iff.1 joinFound).1

end FileTree

/-- Every path that is told gets the same verdict below both roots, on the tree
that the watcher leaves when it is told of that path. -/
def Watcher.SameVerdictsBelow
    (watcher : Watcher state) (world : state × FileTree)
    (first second : Path) (told : List Path) : Prop :=
  ∀ before path after,
    told = before ++ path :: after →
      let tree := (watcher.tell world (before ++ [path])).2
      ∀ verdict,
        tree.examine first path = .ok verdict ↔
          tree.examine second path = .ok verdict

/-- Whenever the watcher is told of a path, both roots lead to one directory
after it, and the path can be looked up below both. -/
def Watcher.KeepsRoots
    (watcher : Watcher state) (world : state × FileTree)
    (first second : Path) (told : List Path) : Prop :=
  ∀ before path after,
    told = before ++ path :: after →
      let tree := (watcher.tell world (before ++ [path])).2
      tree.LeadTogether first second ∧
        tree.WithinLimits (first.join path) ∧
          tree.WithinLimits (second.join path)

theorem Watcher.KeepsRoots.sameVerdictsBelow
    {world : state × FileTree} {told : List Path}
    (kept : watcher.KeepsRoots world first second told)
    (relative : ∀ path ∈ told, path.isAbsolute = false) :
    watcher.SameVerdictsBelow world first second told := by
  intro before path after split tree verdict
  obtain ⟨together, firstLimits, secondLimits⟩ :=
    kept before path after split
  have pathRelative := relative path (by
    rw [split]
    exact List.mem_append_cons_self)
  exact
    ⟨together.examine_eq_ok pathRelative secondLimits,
      together.symm.examine_eq_ok pathRelative firstLimits⟩

/-- A watcher that keeps the tree keeps the roots together, and a candidate can
be looked up below both. -/
theorem Watcher.KeepsTree.keepsRoots
    {settings : Settings} {watched : state} {tree : FileTree}
    {candidates told : List Path}
    (quiet : watcher.KeepsTree)
    (shares : tree.SharesRoot settings first second)
    (found : tree.candidates (settings.rootedAt first) = .ok candidates)
    (begins : told <+: candidates) :
    watcher.KeepsRoots (watched, tree) first second told := by
  intro before path after split
  have member : path ∈ candidates := by
    apply begins.subset
    rw [split]
    exact List.mem_append_cons_self
  rw [quiet.tell_eq]
  exact
    ⟨shares.together,
      FileTree.withinLimits_of_candidate (shares.relative.rootedAt first) found
        member,
      FileTree.withinLimits_of_candidate (shares.relative.rootedAt second)
        (shares.candidates_eq_ok found) member⟩

namespace Examines

variable
  {root : Path} {world final : state × FileTree} {paths told : List Path}
  {outcome : Except Failure (List Violation)}

/-- There is only one way to examine candidates. -/
theorem unique
    {otherTold : List Path} {otherFinal : state × FileTree}
    {otherOutcome : Except Failure (List Violation)}
    (examines : Examines root watcher world paths told outcome final)
    (again :
      Examines root watcher world paths otherTold otherOutcome otherFinal) :
    told = otherTold ∧ outcome = otherOutcome ∧ final = otherFinal := by
  induction examines generalizing otherTold otherOutcome otherFinal with
  | finished =>
      cases again
      exact ⟨rfl, rfl, rfl⟩
  | stopped examined =>
      cases again with
      | stopped examinedAgain =>
          rw [examined] at examinedAgain
          cases examinedAgain
          exact ⟨rfl, rfl, rfl⟩
      | judged examinedAgain _ =>
          rw [examined] at examinedAgain
          cases examinedAgain
  | judged examined _ inductionHypothesis =>
      cases again with
      | stopped examinedAgain =>
          rw [examined] at examinedAgain
          cases examinedAgain
      | judged examinedAgain later =>
          rw [examined] at examinedAgain
          cases examinedAgain
          obtain ⟨rfl, rfl, rfl⟩ := inductionHypothesis later
          exact ⟨rfl, rfl, rfl⟩

/-- Where every candidate that is told gets the same verdict below another
root, the run below that root goes the same way. -/
theorem exists_rerooted
    (examines : Examines first watcher world paths told outcome final)
    (same : watcher.SameVerdictsBelow world first second told) :
    ∃ otherOutcome,
      Examines second watcher world paths told otherOutcome final ∧
        outcome.toOption = otherOutcome.toOption := by
  induction examines with
  | finished => exact ⟨_, .finished, rfl⟩
  | @stopped world path rest failure examined =>
      cases otherExamined : (watcher world path).2.examine second path with
      | ok verdict =>
          have impossible := (same [] path [] rfl verdict).2 otherExamined
          rw [Watcher.tell, List.nil_append, List.foldl_cons, List.foldl_nil,
            examined] at impossible
          cases impossible
      | error otherFailure => exact ⟨_, .stopped otherExamined, rfl⟩
  | @judged world _ path rest told verdict outcome examined _
      inductionHypothesis =>
      have otherExamined := (same [] path told rfl verdict).1 examined
      obtain ⟨otherOutcome, later, sameOutcome⟩ :=
        inductionHypothesis fun before tested after split =>
          same (path :: before) tested after (congrArg (path :: ·) split)
      refine ⟨_, .judged otherExamined later, ?_⟩
      rw [toOption_map, toOption_map, sameOutcome]

end Examines

theorem audit_eq_of_examines
    {settings : Settings} {watched : state} {tree : FileTree}
    {candidates told : List Path} {final : state × FileTree}
    {outcome : Except Failure (List Violation)}
    (found : tree.candidates settings = .ok candidates)
    (examines :
      Examines settings.root watcher (watched, tree) candidates told outcome
        final) :
    toldPaths settings watcher watched tree = told ∧
      ∃ log,
        audit settings watcher watched tree =
          ⟨outcome.map
              (Report.ofViolations settings.root candidates.length),
            final.1, final.2, log⟩ := by
  obtain ⟨_, _, log, actual, same⟩ := exists_examines watcher watched found
  obtain ⟨sameTold, rfl, rfl⟩ := actual.unique examines
  exact ⟨sameTold, log, same⟩

/-- The candidates do not depend on how the root is spelled, and whatever was
walked begins with the root.  A watcher that keeps the roots together is told
of the same paths and leaves the same behind; the reports differ in the root
that they name. -/
theorem audit_rootedAt
    {settings : Settings} {tree : FileTree}
    (shares : tree.SharesRoot settings first second) :
    (∀ candidates,
      tree.candidates (settings.rootedAt first) = .ok candidates ↔
        tree.candidates (settings.rootedAt second) = .ok candidates) ∧
    (∀ directory ∈ settings.includeDirs, ∀ files,
      tree.walk settings.followLinks settings.maxDepth
          (first.join directory) = .ok files →
        ∀ source ∈ files, ∃ rest,
          first.components.isPrefixOf? source.components = some rest ∧
            first.relativeTo source = Path.ofComponents rest) ∧
    ∀ {state : Type} (watcher : Watcher state) (watched : state),
      let told := toldPaths (settings.rootedAt first) watcher watched tree
      let result := audit (settings.rootedAt first) watcher watched tree
      let other := audit (settings.rootedAt second) watcher watched tree
      watcher.KeepsTree ∨
          watcher.KeepsRoots (watched, tree) first second told →
        toldPaths (settings.rootedAt second) watcher watched tree = told ∧
          (other.watched, other.tree) = (result.watched, result.tree) ∧
            other.outcome.toOption =
              result.outcome.toOption.map fun report =>
                { report with root := second } := by
  have sameFound (candidates : List Path) :
      tree.candidates (settings.rootedAt first) = .ok candidates ↔
        tree.candidates (settings.rootedAt second) = .ok candidates :=
    ⟨shares.candidates_eq_ok, shares.symm.candidates_eq_ok⟩
  refine ⟨sameFound, ?_, ?_⟩
  · intro directory member files walked source sourceMember
    obtain ⟨home, firstHome, _⟩ := shares.together
    have notEmpty :=
      FileTree.bytes_ne_nil_of_isDirectory
        (FileTree.isDirectory_iff.2 ⟨home, firstHome⟩)
    exact
      FileTree.exists_rest_of_mem_walk notEmpty
        (shares.relative.dirs directory member) walked sourceMember
  · intro state watcher watched told result other keeps
    cases found : tree.candidates (settings.rootedAt first) with
    | error failure =>
        cases otherFound : tree.candidates (settings.rootedAt second) with
        | ok candidates =>
            rw [(sameFound candidates).2 otherFound] at found
            cases found
        | error otherFailure =>
            have nothing : told = [] := toldPaths_of_error found
            refine ⟨?_, ?_, ?_⟩
            · rw [nothing, toldPaths_of_error otherFound]
            · simp only [other, result, audit_of_lost found,
                audit_of_lost otherFound]
            · simp only [other, result, audit_of_lost found,
                audit_of_lost otherFound]
              rfl
    | ok candidates =>
        have otherFound := (sameFound candidates).1 found
        obtain ⟨outcome, final, _, examines, same⟩ :=
          exists_examines watcher watched found
        have begins : told <+: candidates := examines.told_begins
        have keepsRoots :
            watcher.KeepsRoots (watched, tree) first second told := by
          rcases keeps with quiet | kept
          · exact quiet.keepsRoots shares found begins
          · exact kept
        have relative (path : Path) (member : path ∈ told) :=
          FileTree.isAbsolute_of_candidate (shares.relative.rootedAt first)
            found (begins.subset member)
        obtain ⟨otherOutcome, otherExamines, sameOutcome⟩ :=
          examines.exists_rerooted (keepsRoots.sameVerdictsBelow relative)
        obtain ⟨otherTold, _, otherSame⟩ :=
          audit_eq_of_examines otherFound otherExamines
        change result = _ at same
        change other = _ at otherSame
        refine ⟨otherTold, ?_, ?_⟩
        · rw [same, otherSame]
        · rw [same, otherSame, toOption_map, toOption_map, sameOutcome,
            Option.map_map]
          rfl

/-- Two directories, a link from one to the other and one to the top. -/
def roundTree : FileTree :=
  FileTree.empty.editAll
    [.file (Path.ofString "lib/a.py") [0x23],
      .file (Path.ofString "other/b.py") [],
      .link (Path.ofString "lib/in") (Path.ofString "../other"),
      .link (Path.ofString "home") (Path.ofString ".")]

/-- Settings that watch the one directory and name a file in the other. -/
def roundSettings : Settings where
  root := Path.ofString "."
  includeDirs := [Path.ofString "./lib/"]
  includeFiles := [Path.ofString "lib/in//b.py"]
  exclude := []
  followLinks := true
  maxDepth := 1

/-- Two ways to spell the top, the second through both links. -/
def roundRoots : List Path :=
  [".", "home/lib/in/..//."].map Path.ofString

theorem roundTree_withinLimits :
    ∀ root ∈ roundRoots, ∀ path,
      roundTree.LooksUp (roundSettings.rootedAt root) path →
        roundTree.WithinLimits path := by
  have located :
      ∀ root ∈ roundRoots,
        roundTree.locate (root.join (Path.ofString "./lib/")) =
          .ok (FileTree.tiedLocation ["lib"]) := by
    decide +kernel
  have listed :
      ∀ root ∈ roundRoots,
        ∀ name ∈ roundTree.listing (FileTree.tiedLocation ["lib"]),
          let path := (root.join (Path.ofString "./lib/")).entry name
          path.bytes.length ≤ longestPath ∧
            roundTree.locate path ≠ .error .tooManyLinks := by
    decide +kernel
  have named :
      ∀ root ∈ roundRoots,
        let path := root.join (Path.ofString "lib/in//b.py")
        path.bytes.length ≤ longestPath ∧
          roundTree.locate path ≠ .error .tooManyLinks := by
    decide +kernel
  intro root member path looked
  cases looked with
  | walked directoryMember walkLooked =>
      rw [List.mem_singleton.1 directoryMember] at walkLooked
      refine
        FileTree.walkWithinLimits_one (located root member) ?_ _ walkLooked
      intro name nameListed
      obtain ⟨short, settled⟩ := listed root member name nameListed
      exact .of_locate_ne short settled
  | named fileMember =>
      rw [List.mem_singleton.1 fileMember]
      obtain ⟨short, settled⟩ := named root member
      exact .of_locate_ne short settled

/-- The second spelling leads to the top through both links. -/
theorem roundTree_audit_rootedAt :
    let first := Path.ofString "."
    let second := Path.ofString "home/lib/in/..//."
    roundTree.SharesRoot roundSettings first second ∧
      roundTree.candidates (roundSettings.rootedAt second) =
        .ok [Path.ofString "lib/a.py", Path.ofString "lib/in/b.py"] ∧
      let quiet : Watcher Unit := fun world _ => world
      let outcome := fun root =>
        (audit (roundSettings.rootedAt root) quiet () roundTree).outcome
      (outcome second).toOption =
        (outcome first).toOption.map fun report =>
          { report with root := second } := by
  intro first second
  have shares : roundTree.SharesRoot roundSettings first second :=
    { relative := ⟨by decide, by decide⟩
      together := ⟨[], by decide +kernel, by decide +kernel⟩
      firstLimits :=
        roundTree_withinLimits first List.mem_cons_self
      secondLimits :=
        roundTree_withinLimits second
          (List.mem_cons_of_mem _ List.mem_cons_self) }
  have found :
      roundTree.candidates (roundSettings.rootedAt first) =
        .ok [Path.ofString "lib/a.py", Path.ofString "lib/in/b.py"] := by
    decide +kernel
  obtain ⟨sameFound, _, runs⟩ := audit_rootedAt shares
  refine ⟨shares, (sameFound _).1 found, ?_⟩
  exact (runs (fun world _ => world) () (Or.inl fun _ _ => rfl)).2.2

end HeaderAudit
