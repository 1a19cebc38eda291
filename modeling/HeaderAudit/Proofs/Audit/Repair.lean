import HeaderAudit.Proofs.Audit.Quiet
import HeaderAudit.Proofs.Candidates.Shape
import HeaderAudit.Proofs.Report.Hints
import HeaderAudit.Proofs.Text.Utf8
import HeaderAudit.Proofs.Walk.Ends

/-! Files are rewritten as the hints say. Two candidates that lead to one file
must be excluded, because their categories can ask for different headers. -/

namespace HeaderAudit

namespace FileTree

/-- No two candidates lead to one file. -/
def CandidatesApart (tree : FileTree) (settings : Settings) : Prop :=
  ∀ candidates,
    tree.candidates settings = .ok candidates →
      ∀ first ∈ candidates, ∀ second ∈ candidates, ∀ location,
        tree.locate (settings.root.join first) = .ok location →
          tree.locate (settings.root.join second) = .ok location →
            first = second

/-- The second tree is the first one with the file of every violation rewritten
to begin with a header that the hints show for it. -/
structure Repairs
    (tree : FileTree) (settings : Settings) (report : Report)
    (repaired : FileTree) : Prop where
  workingDirectory : repaired.workingDirectory = tree.workingDirectory
  unreadable : repaired.unreadable = tree.unreadable
  rewritten :
    ∀ violation ∈ report.violations, ∀ location,
      tree.locate (settings.root.join violation.path) = .ok location →
        ∃ header rest,
          Report.ShowsHeader report.hints violation.category header ∧
            repaired.node? location =
              some (.file (Utf8.encode (header ++ rest)))
  kept :
    ∀ location,
      (∀ violation ∈ report.violations,
          tree.locate (settings.root.join violation.path) ≠ .ok location) →
        repaired.node? location = tree.node? location

variable
  {tree repaired : FileTree} {settings : Settings} {report : Report}
  {candidates : List Path} {path : Path}

theorem read_of_node?
    {location : Location} {content : List UInt8}
    (located : tree.locate path = .ok location)
    (present : tree.node? location = some (.file content))
    (permitted : location ∉ tree.unreadable) :
    tree.read path = .ok content := by
  have found := find_eq_ok_iff.2 ⟨located, present⟩
  rw [read_of_find_file found, if_neg permitted]

theorem exists_file_of_candidate
    (listed : tree.candidates settings = .ok candidates)
    (member : path ∈ candidates)
    (completes : tree.Completes settings.root path) :
    ∃ location content,
      tree.locate (settings.root.join path) = .ok location ∧
        tree.node? location = some (.file content) ∧
          location ∉ tree.unreadable := by
  obtain ⟨source, yields⟩ := exists_yields_of_candidate listed member
  obtain ⟨location, content, _, found⟩ :=
    yields.find_join_eq (rootThere_of_candidates listed) completes.short
  obtain ⟨located, present⟩ := find_eq_ok_iff.1 found
  refine ⟨location, content, located, present, ?_⟩
  intro refused
  exact completes.permitted ⟨location, _, found, refused⟩

/-- A file that begins with the header of its category is no violation. -/
theorem examine_of_headed
    {root : Path} {content : List Char}
    (governed : (Category.ofPath path).isGoverned = true)
    (readBytes : tree.read (root.join path) = .ok (Utf8.encode content))
    (headed : (Category.ofPath path).IsHeaded content) :
    tree.examine root path = .ok none := by
  have decoded : Utf8.decode (Utf8.encode content) = some content :=
    Utf8.decode_eq_some_iff.2 rfl
  refine
    examine_eq_ok_iff.2
      ⟨_, readBytes, fun _ => ⟨_, decoded⟩, Or.inr ⟨?_, rfl⟩⟩
  rw [Category.violates_iff_of_decode governed decoded, not_not]
  exact headed

namespace Repairs

/-- A repair replaces the content of files and nothing else. -/
theorem sameShape
    (repairs : tree.Repairs settings report repaired)
    (reported : tree.finding settings = .ok report) :
    tree.SameShape repaired where
  workingDirectory := repairs.workingDirectory.symm
  unreadable := repairs.unreadable.symm
  nodes location := by
    obtain ⟨candidates, listed, _, _, completes, described⟩ :=
      exists_candidates_of_finding reported
    by_cases violated :
        ∃ violation ∈ report.violations,
          tree.locate (settings.root.join violation.path) = .ok location
    · obtain ⟨violation, member, located⟩ := violated
      have candidate := ((described violation).1 member).1
      obtain ⟨reached, content, reachedLocated, present, _⟩ :=
        exists_file_of_candidate listed candidate (completes _ candidate)
      rw [located] at reachedLocated
      cases reachedLocated
      obtain ⟨_, _, _, rewritten⟩ :=
        repairs.rewritten violation member location located
      exact Or.inr ⟨content, _, present, rewritten⟩
    · refine Or.inl (repairs.kept location ?_).symm
      intro violation member located
      exact violated ⟨violation, member, located⟩

theorem examine_violation
    (repairs : tree.Repairs settings report repaired)
    (sameShape : tree.SameShape repaired)
    {violation : Violation} (member : violation ∈ report.violations)
    (category : violation.category = Category.ofPath violation.path)
    (governed : violation.category.isGoverned = true)
    {location : Location}
    (located :
      tree.locate (settings.root.join violation.path) = .ok location)
    (permitted : location ∉ tree.unreadable) :
    repaired.examine settings.root violation.path = .ok none := by
  obtain ⟨header, rest, shows, present⟩ :=
    repairs.rewritten violation member location located
  have headed :=
    Report.isHeaded_of_showsHeader governed member shows rest
  rw [sameShape.locate_eq] at located
  rw [← repairs.unreadable] at permitted
  rw [category] at governed headed
  exact
    examine_of_headed governed (read_of_node? located present permitted)
      headed

end Repairs

/-- Rewriting the files of all violations to begin with what the hints show
leads to a run on the same candidates without violations. -/
theorem finding_of_repairs
    (reported : tree.finding settings = .ok report)
    (apart : tree.CandidatesApart settings)
    (repairs : tree.Repairs settings report repaired) :
    repaired.finding settings =
      .ok ⟨settings.root, report.processedFiles, true, []⟩ := by
  have sameShape := repairs.sameShape reported
  obtain ⟨candidates, listed, _, counted, completes, described⟩ :=
    exists_candidates_of_finding reported
  rw [counted]
  apply finding_of_clean (sameShape.candidates_eq_ok listed)
  intro path member
  obtain ⟨location, content, located, present, permitted⟩ :=
    exists_file_of_candidate listed member (completes path member)
  have readBefore := read_of_node? located present permitted
  by_cases violates : (Category.ofPath path).Violates content
  · have violation :
        (⟨path, Category.ofPath path⟩ : Violation) ∈ report.violations :=
      (described _).2 ⟨member, rfl, content, readBefore, violates⟩
    exact
      repairs.examine_violation sameShape violation rfl violates.1 located
        permitted
  · -- The file is none of those that were rewritten.
    have untouched := repairs.kept location (by
      intro violation listedViolation same
      obtain ⟨candidate, category, bytes, readBytes, violatesBytes⟩ :=
        (described violation).1 listedViolation
      have samePath :=
        apart candidates listed _ candidate _ member location same located
      rw [samePath, readBefore] at readBytes
      cases readBytes
      rw [category, samePath] at violatesBytes
      exact violates violatesBytes)
    rw [present] at untouched
    rw [sameShape.locate_eq] at located
    rw [← repairs.unreadable] at permitted
    exact
      examine_eq_ok_iff.2
        ⟨content, read_of_node? located untouched permitted,
          (completes path member).decodes content readBefore,
          Or.inr ⟨violates, rfl⟩⟩

theorem repairs_put
    {violation : Violation} {location : Location} {header : List Char}
    (inside : location ≠ []) (only : report.violations = [violation])
    (located :
      tree.locate (settings.root.join violation.path) = .ok location)
    (shows : Report.ShowsHeader report.hints violation.category header)
    (rest : List Char) :
    tree.Repairs settings report
      (tree.put location (.file (Utf8.encode (header ++ rest)))) where
  workingDirectory := rfl
  unreadable := rfl
  rewritten := by
    rw [only]
    intro tested member reached reachedLocated
    cases List.mem_singleton.1 member
    rw [located] at reachedLocated
    cases reachedLocated
    exact ⟨header, rest, shows, node?_put_self tree inside _⟩
  kept := by
    rw [only]
    intro tested elsewhere
    apply node?_put_of_ne tree
    rintro rfl
    exact elsewhere violation (List.mem_singleton_self _) located

end FileTree

theorem Header.exists_notice_of_expectedText?
    {category : Category} {withPreamble : Bool} {text : String}
    (expected : expectedText? category withPreamble = some text) :
    ∃ before style, text = before ++ CommentStyle.notice style := by
  cases category with
  | compiledSource =>
      rw [← Option.some.inj expected]
      exact ⟨"", .block, String.empty_append.symm⟩
  | header =>
      rw [← Option.some.inj expected]
      exact ⟨_, .block, rfl⟩
  | script =>
      cases withPreamble with
      | false =>
          rw [← Option.some.inj expected]
          exact ⟨"", .line, String.empty_append.symm⟩
      | true =>
          rw [← Option.some.inj expected]
          exact ⟨_, .line, rfl⟩
  | buildConfig =>
      rw [← Option.some.inj expected]
      exact ⟨"", .line, String.empty_append.symm⟩
  | other => cases expected

/-- A governed file that is empty is a violation. -/
theorem Category.violates_nil
    {category : Category} (governed : category.isGoverned = true) :
    category.Violates [] := by
  have decoded : Utf8.decode [] = some [] := rfl
  rw [violates_iff_of_decode governed decoded]
  intro headed
  obtain ⟨_, _, expected, begins⟩ := headed
  obtain ⟨before, style, rfl⟩ :=
    Header.exists_notice_of_expectedText? expected
  have empty := List.prefix_nil.1 begins
  rw [String.toList_append, style.toList_notice, CommentStyle.noticeLines,
    List.cons_append, Text.joinLines_cons _ (by simp)] at empty
  simp at empty

namespace FileTree

/-- A tree with a script without a header, one with it, and a file that is
not governed. -/
def bareTree : FileTree :=
  (FileTree.empty.editAll
    [.file (Path.ofString "lib/a.py") [],
      .file (Path.ofString "lib/b.py") [],
      .file (Path.ofString "lib/c.txt") [0xFF]]).put
    (tiedLocation ["b.py", "lib"])
    (.file (Utf8.encode (CommentStyle.notice .line).toList))

/-- Settings that find the three files. -/
def bareSettings : Settings where
  root := Path.ofString "."
  includeDirs := [Path.ofString "lib"]
  includeFiles := []
  exclude := []
  followLinks := false
  maxDepth := 2

/-- The report on that tree. -/
def bareReport : Report :=
  ⟨Path.ofString ".", 3, false, [⟨Path.ofString "lib/a.py", .script⟩]⟩

/-- The candidates in that tree. -/
def bareCandidates : List Path :=
  ["lib/a.py", "lib/b.py", "lib/c.txt"].map Path.ofString

theorem bareTree_candidates :
    bareTree.candidates bareSettings = .ok bareCandidates := by
  decide +kernel

theorem bareTree_candidatesApart : bareTree.CandidatesApart bareSettings := by
  have different :
      ∀ first ∈ bareCandidates, ∀ second ∈ bareCandidates,
        bareTree.locate (bareSettings.root.join first) =
            bareTree.locate (bareSettings.root.join second) →
          first = second := by
    decide +kernel
  intro candidates listed first firstMember second secondMember _ firstLocated
    secondLocated
  rw [bareTree_candidates] at listed
  cases listed
  exact
    different first firstMember second secondMember
      (firstLocated.trans secondLocated.symm)

theorem bareTree_read_bare :
    bareTree.read (bareSettings.root.join (Path.ofString "lib/a.py")) =
      .ok [] := by
  decide +kernel

theorem bareTree_examine_bare :
    bareTree.examine bareSettings.root (Path.ofString "lib/a.py") =
      .ok (some ⟨Path.ofString "lib/a.py", .script⟩) := by
  have category : Category.ofPath (Path.ofString "lib/a.py") = .script := by
    decide +kernel
  rw [examine_eq_some_iff, category]
  exact ⟨rfl, [], bareTree_read_bare, Category.violates_nil rfl⟩

theorem bareTree_examine_headed :
    bareTree.examine bareSettings.root (Path.ofString "lib/b.py") =
      .ok none := by
  have category : Category.ofPath (Path.ofString "lib/b.py") = .script := by
    decide +kernel
  have governed :
      (Category.ofPath (Path.ofString "lib/b.py")).isGoverned = true := by
    rw [category]
    rfl
  have headed :
      Category.script.IsHeaded (CommentStyle.notice .line).toList :=
    ⟨false, CommentStyle.notice .line, rfl, List.prefix_rfl⟩
  rw [← category] at headed
  have located :
      bareTree.locate (bareSettings.root.join (Path.ofString "lib/b.py")) =
        .ok (tiedLocation ["b.py", "lib"]) := by
    decide +kernel
  have inside : tiedLocation ["b.py", "lib"] ≠ [] := by decide
  have present :
      bareTree.node? (tiedLocation ["b.py", "lib"]) =
        some (.file (Utf8.encode (CommentStyle.notice .line).toList)) :=
    node?_put_self _ inside _
  exact
    examine_of_headed governed (read_of_node? located present (by decide))
      headed

theorem bareTree_examine_ungoverned :
    bareTree.examine bareSettings.root (Path.ofString "lib/c.txt") =
      .ok none := by
  decide +kernel

theorem bareTree_finding :
    bareTree.finding bareSettings = .ok bareReport := by
  rw [finding, outcome_eq_gather bareTree_candidates, bareCandidates,
    List.map_cons, gather_silent_of_ok bareTree_examine_bare, List.map_cons,
    gather_silent_of_ok bareTree_examine_headed, List.map_cons,
    gather_silent_of_ok bareTree_examine_ungoverned]
  rfl

/-- The script without a header is repaired by a notice without the two lines
before it, and the other two files are kept. -/
theorem bareTree_repaired :
    bareTree.finding bareSettings = .ok bareReport ∧
      bareTree.CandidatesApart bareSettings ∧
      ∃ repaired,
        bareTree.Repairs bareSettings bareReport repaired ∧
          repaired.finding bareSettings = .ok ⟨Path.ofString ".", 3, true, []⟩
    := by
  obtain ⟨location, found, _⟩ := read_eq_ok_iff.1 bareTree_read_bare
  obtain ⟨located, present⟩ := find_eq_ok_iff.1 found
  have inside : location ≠ [] := by
    rintro rfl
    cases present
  have shows :
      Report.ShowsHeader bareReport.hints .script
        (Text.joinLines
          ((Report.headerShown bareReport.hints .script).drop 2)) :=
    Or.inr ⟨rfl, rfl⟩
  have only :
      bareReport.violations = [⟨Path.ofString "lib/a.py", .script⟩] :=
    rfl
  have repairs := repairs_put inside only located shows "print()".toList
  exact
    ⟨bareTree_finding, bareTree_candidatesApart, _, repairs,
      finding_of_repairs bareTree_finding bareTree_candidatesApart repairs⟩

end FileTree

end HeaderAudit
