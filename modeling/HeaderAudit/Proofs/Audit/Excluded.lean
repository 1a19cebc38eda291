import HeaderAudit.Proofs.Audit.Quiet
import HeaderAudit.Proofs.Candidates.Excluded

/-! What is found at one candidate does not depend on the others, so to exclude
files is to leave them out of the report. Only a failure makes a difference. -/

namespace HeaderAudit

namespace FileTree

variable
  {tree : FileTree} {settings : Settings} {root path : Path}
  {entries : List String} {exclusion : Exclusion}

theorem path_of_examine
    {verdict : Option Violation}
    (examined : tree.examine root path = .ok verdict) :
    ∀ violation ∈ verdict.toList, violation.path = path := by
  intro violation member
  rw [Option.mem_toList] at member
  rw [Option.mem_def.1 member] at examined
  rw [(examine_eq_some_iff.1 examined).1]

/-- What is found at the candidates that are kept is what is found at all of
them, less what is found at the others. -/
theorem gather_filter
    (keeps : Path → Bool) {paths : List Path} :
    ∀ {violations : List Violation},
      (gather root Watcher.silent ((), tree) paths).1 = .ok violations →
        (gather root Watcher.silent ((), tree) (paths.filter keeps)).1 =
          .ok (violations.filter fun violation => keeps violation.path) := by
  induction paths with
  | nil =>
      intro violations ended
      cases ended
      rfl
  | cons path rest inductionHypothesis =>
      intro violations ended
      cases examined : tree.examine root path with
      | error failure =>
          simp only [gather, Watcher.silent_apply, examined] at ended
          cases ended
      | ok verdict =>
          rw [gather_silent_of_ok examined] at ended
          obtain ⟨later, laterEnded, rfl⟩ := map_eq_ok_iff.1 ended
          have laterKept := inductionHypothesis laterEnded
          have ownPath := path_of_examine examined
          rw [List.filter_append]
          cases kept : keeps path with
          | true =>
              have verdictKept :
                  (verdict.toList.filter fun violation =>
                    keeps violation.path) = verdict.toList :=
                List.filter_eq_self.2 fun violation member => by
                  rw [ownPath violation member, kept]
              rw [List.filter_cons_of_pos kept, verdictKept,
                gather_silent_of_ok examined, laterKept]
              rfl
          | false =>
              have verdictLeftOut :
                  (verdict.toList.filter fun violation =>
                    keeps violation.path) = [] :=
                List.filter_eq_nil_iff.2 fun violation member => by
                  rw [ownPath violation member, kept]
                  exact Bool.false_ne_true
              have leftOut : ¬ keeps path = true := by
                rw [kept]
                exact Bool.false_ne_true
              rw [List.filter_cons_of_neg leftOut, verdictLeftOut]
              exact laterKept

/-- Excluding files subtracts them from the report, in the count as in the
violations. -/
theorem finding_excluding
    {candidates : List Path} {report : Report}
    (usable : Exclusion.ofEntries entries = .ok exclusion)
    (found : tree.candidates (settings.excluding []) = .ok candidates)
    (reported : tree.finding (settings.excluding []) = .ok report) :
    tree.finding (settings.excluding entries) =
      .ok
        (Report.ofViolations settings.root
          (candidates.filter fun path => !exclusion.excludes path).length
          (report.violations.filter fun violation =>
            !exclusion.excludes violation.path)) := by
  have narrowed := candidates_excluding_eq_ok usable found
  rw [finding, outcome_eq_gather found] at reported
  obtain ⟨violations, ended, rfl⟩ := map_eq_ok_iff.1 reported
  have kept :=
    gather_filter (fun path => !exclusion.excludes path) ended
  rw [Settings.excluding_root] at kept
  rw [finding, outcome_eq_gather narrowed, Settings.excluding_root, kept]
  rfl

/-- A run has a report when all that is not excluded completes, whatever there
is that is excluded. -/
theorem exists_finding_excluding
    {candidates : List Path}
    (usable : Exclusion.ofEntries entries = .ok exclusion)
    (found : tree.candidates (settings.excluding []) = .ok candidates)
    (completes :
      ∀ path ∈ candidates, exclusion.excludes path = false →
        tree.Completes settings.root path) :
    ∃ report, tree.finding (settings.excluding entries) = .ok report := by
  apply exists_finding_of_completes (candidates_excluding_eq_ok usable found)
  intro path member
  obtain ⟨candidate, kept⟩ := List.mem_filter.1 member
  exact completes path candidate (by simpa using kept)

end FileTree

theorem excludes_eq_false_of_told
    {state : Type} {watcher : Watcher state} {watched : state}
    {tree : FileTree} {settings : Settings} {entries : List String}
    {exclusion : Exclusion} {path : Path}
    (usable : Exclusion.ofEntries entries = .ok exclusion)
    (told :
      path ∈
        toldPaths (settings.excluding entries) watcher watched tree) :
    exclusion.excludes path = false := by
  cases found : tree.candidates (settings.excluding entries) with
  | error failure =>
      rw [toldPaths_of_error found] at told
      cases told
  | ok candidates =>
      obtain ⟨_, _, _, examines, _⟩ := exists_examines watcher watched found
      exact
        FileTree.excludes_eq_false_of_candidate usable found
          (examines.told_begins.subset told)

/-- The watcher is told of nothing that is excluded.  A report with less
excluded, narrowed to what is kept, is the report with more excluded; and there
is one whenever all kept candidates complete.  A list that is split leaves what
both parts leave. -/
theorem audit_excluding
    {state otherState : Type}
    {watcher : Watcher state} {other : Watcher otherState}
    {entries : List String} {exclusion : Exclusion}
    (usable : Exclusion.ofEntries entries = .ok exclusion)
    (quiet : watcher.KeepsTree) (otherQuiet : other.KeepsTree)
    (settings : Settings) (tree : FileTree)
    (watched : state) (otherWatched : otherState) :
    let whole := settings.excluding []
    let narrowed := settings.excluding entries
    let outcome := (audit narrowed watcher watched tree).outcome
    (∀ path ∈ toldPaths narrowed watcher watched tree,
      exclusion.excludes path = false) ∧
      (∀ report,
        (audit whole other otherWatched tree).outcome = .ok report →
          ∃ candidates,
            tree.candidates whole = .ok candidates ∧
              outcome =
                .ok
                  (Report.ofViolations settings.root
                    (candidates.filter fun path =>
                      !exclusion.excludes path).length
                    (report.violations.filter fun violation =>
                      !exclusion.excludes violation.path))) ∧
      (∀ candidates,
        tree.candidates whole = .ok candidates →
          (∀ path ∈ candidates, ∀ bytes,
            tree.read (settings.root.join path) = .ok bytes →
              ¬ (Category.ofPath path).Decodes bytes →
                exclusion.excludes path = true) →
          (∀ path ∈ candidates, exclusion.excludes path = false →
            (settings.root.join path).bytes.length ≤ longestPath ∧
              ¬ tree.Refuses (settings.root.join path)) →
            ∃ report, outcome = .ok report) ∧
      (settings.root.isAbsolute = false ∨
          (∀ directory ∈ settings.includeDirs,
            directory.isAbsolute = false) →
        ∀ candidates,
          tree.candidates whole = .ok candidates →
            ∀ path ∈ candidates,
              (settings.root.join path).bytes.length ≤ longestPath) ∧
      ∀ former latter,
        ((∃ left,
            tree.candidates (settings.excluding (former ++ latter)) =
              .ok left) ↔
          (∃ formerLeft,
              tree.candidates (settings.excluding former) =
                .ok formerLeft) ∧
            ∃ latterLeft,
              tree.candidates (settings.excluding latter) =
                .ok latterLeft) ∧
        ∀ left formerLeft latterLeft,
          tree.candidates (settings.excluding (former ++ latter)) =
              .ok left →
            tree.candidates (settings.excluding former) = .ok formerLeft →
              tree.candidates (settings.excluding latter) =
                  .ok latterLeft →
                ∀ path,
                  path ∈ left ↔
                    path ∈ formerLeft ∧ path ∈ latterLeft := by
  intro whole narrowed outcome
  have outcomeSame : outcome = tree.finding narrowed :=
    outcome_eq_finding quiet narrowed watched tree
  rw [outcomeSame, outcome_eq_finding otherQuiet whole otherWatched tree]
  refine
    ⟨fun path told => excludes_eq_false_of_told usable told, ?_, ?_, ?_, ?_⟩
  · intro report reported
    obtain ⟨candidates, found, _⟩ :=
      FileTree.exists_candidates_of_finding reported
    exact
      ⟨candidates, found, FileTree.finding_excluding usable found reported⟩
  · intro candidates found undecodable permitted
    apply FileTree.exists_finding_excluding usable found
    intro path member kept
    obtain ⟨short, notRefused⟩ := permitted path member kept
    refine ⟨short, notRefused, fun bytes readBytes => ?_⟩
    by_contra misread
    rw [undecodable path member bytes readBytes misread] at kept
    cases kept
  · intro spelled candidates found path member
    have short := FileTree.short_of_candidate found spelled member
    exact short
  · intro former latter
    refine ⟨FileTree.exists_candidates_excluding_append_iff, ?_⟩
    intro left formerLeft latterLeft found formerFound latterFound
    exact
      FileTree.mem_candidates_excluding_append_iff found formerFound
        latterFound

/-- A script among sources that are no text. -/
def garbledTree : FileTree :=
  FileTree.empty.editAll
    [.file (Path.ofString "lib/a.py") [0x23],
      .file (Path.ofString "lib/b.cpp") [0xFF],
      .file (Path.ofString "lib/gen/c.cpp") [0xFF]]

/-- Settings that watch one directory. -/
def garbledSettings : Settings where
  root := Path.ofString "."
  includeDirs := [Path.ofString "lib"]
  includeFiles := []
  exclude := []
  followLinks := false
  maxDepth := 64

/-- A pattern for one source and another spelling of the other one. -/
def garbledEntries : List String :=
  ["lib/gen/*", "./lib//b.cpp"]

/-- What the entries are read as. -/
def garbledExclusion : Exclusion where
  literals := [Path.ofString "lib/gen/*", Path.ofString "lib/b.cpp"]
  patterns :=
    ["lib/gen/".toList.map .literal ++ [.anyText],
      "./lib//b.cpp".toList.map .literal]

/-- The run that excludes nothing fails at the first source; the one that
excludes both sources has a report. -/
theorem garbledTree_audit_excluding :
    Exclusion.ofEntries garbledEntries = .ok garbledExclusion ∧
      Watcher.silent.KeepsTree ∧
      (audit (garbledSettings.excluding []) Watcher.silent ()
          garbledTree).outcome =
        .error (.notUtf8 (Path.ofString "lib/b.cpp")) ∧
      ∃ report,
        (audit (garbledSettings.excluding garbledEntries) Watcher.silent ()
            garbledTree).outcome = .ok report := by
  have usable :
      Exclusion.ofEntries garbledEntries = .ok garbledExclusion := by
    decide +kernel
  have found :
      garbledTree.candidates (garbledSettings.excluding []) =
        .ok
          [Path.ofString "lib/a.py", Path.ofString "lib/b.cpp",
            Path.ofString "lib/gen/c.cpp"] := by
    decide +kernel
  have scriptRead :
      garbledTree.read
          (garbledSettings.root.join (Path.ofString "lib/a.py")) =
        .ok [0x23] := by
    decide +kernel
  have scriptOrExcluded :
      ∀ path ∈
          [Path.ofString "lib/a.py", Path.ofString "lib/b.cpp",
            Path.ofString "lib/gen/c.cpp"],
        path = Path.ofString "lib/a.py" ∨
          garbledExclusion.excludes path = true := by
    decide +kernel
  obtain ⟨_, _, shielded, shortSpelled, _⟩ :=
    audit_excluding usable Watcher.silent_keepsTree
      Watcher.silent_keepsTree garbledSettings garbledTree () ()
  refine
    ⟨usable, Watcher.silent_keepsTree, by decide +kernel,
      shielded _ found ?_ ?_⟩
  · intro path member bytes readBytes misread
    rcases scriptOrExcluded path member with rfl | excluded
    · rw [scriptRead] at readBytes
      cases readBytes
      exact absurd (fun _ => ⟨['#'], by decide⟩) misread
    · exact excluded
  · intro path member _
    exact
      ⟨shortSpelled (Or.inl (by decide +kernel)) _ found path member,
        FileTree.not_refuses_of_unreadable_eq_nil (by decide +kernel) _⟩

/-- A file that is not governed, and a source that is no text. -/
def remoteTree : FileTree :=
  FileTree.empty.editAll
    [.file (Path.ofString "/tmp/overlong-exclude/lib/a.txt") [],
      .file (Path.ofString "/tmp/overlong-exclude/lib/b.cpp") [0xFF]]

/-- A root that is spelled with so many slashes that no candidate can be joined
to it, and a watched directory that is found without the root. -/
def remoteSettings : Settings where
  root :=
    ⟨List.replicate 4070 slash ++
      (Path.ofString "tmp/overlong-exclude").bytes⟩
  includeDirs := [Path.ofString "/tmp/overlong-exclude/lib"]
  includeFiles := []
  exclude := []
  followLinks := false
  maxDepth := 64

/-- What the list with the source alone is read as. -/
def remoteExclusion : Exclusion where
  literals := [Path.ofString "lib/b.cpp"]
  patterns := ["lib/b.cpp".toList.map .literal]

/-- The list excludes every governed candidate, and yet the run has no
report. -/
theorem remoteTree_audit_unreadable :
    Exclusion.ofEntries ["lib/b.cpp"] = .ok remoteExclusion ∧
      remoteTree.candidates (remoteSettings.excluding []) =
        .ok [Path.ofString "lib/a.txt", Path.ofString "lib/b.cpp"] ∧
      (∀ path ∈ [Path.ofString "lib/a.txt", Path.ofString "lib/b.cpp"],
        (Category.ofPath path).isGoverned = true →
          remoteExclusion.excludes path = true) ∧
      (audit (remoteSettings.excluding ["lib/b.cpp"]) Watcher.silent ()
          remoteTree).outcome =
        .error
          (.unreadable
            (remoteSettings.root.join (Path.ofString "lib/a.txt"))
            .nameTooLong) := by
  have usable :
      Exclusion.ofEntries ["lib/b.cpp"] = .ok remoteExclusion := by
    decide +kernel
  have found :
      remoteTree.candidates (remoteSettings.excluding []) =
        .ok [Path.ofString "lib/a.txt", Path.ofString "lib/b.cpp"] := by
    decide +kernel
  have kept :
      ([Path.ofString "lib/a.txt", Path.ofString "lib/b.cpp"].filter
        fun path => !remoteExclusion.excludes path) =
        [Path.ofString "lib/a.txt"] := by
    decide +kernel
  have narrowed := FileTree.candidates_excluding_eq_ok usable found
  rw [kept] at narrowed
  have overlong :
      longestPath <
        (remoteSettings.root.join
          (Path.ofString "lib/a.txt")).bytes.length := by
    decide +kernel
  have unread :=
    FileTree.read_candidate_of_overlong narrowed List.mem_cons_self overlong
  have examined :=
    FileTree.examine_eq_error_iff.2 (Or.inl ⟨_, unread, rfl⟩)
  exact
    ⟨usable, found, by decide +kernel,
      outcome_of_first_failure narrowed examined⟩

end HeaderAudit
