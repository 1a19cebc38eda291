import HeaderAudit.Proofs.Audit.Quiet
import HeaderAudit.Proofs.Candidates.Shape

/-! Of two trees with one outline a run makes the same as long as the governed
candidates have the same bytes in both. -/

namespace HeaderAudit

namespace FileTree

variable {left right tree : FileTree} {root path : Path}

theorem examine_of_ungoverned
    {bytes : List UInt8}
    (ungoverned : (Category.ofPath path).isGoverned = false)
    (readBytes : tree.read (root.join path) = .ok bytes) :
    tree.examine root path = .ok none := by
  have decodes : (Category.ofPath path).Decodes bytes := by
    intro governed
    rw [ungoverned] at governed
    cases governed
  have clean : ¬ (Category.ofPath path).Violates bytes :=
    Category.not_violates_of_ungoverned ungoverned
  exact
    examine_eq_ok_iff.2 ⟨bytes, readBytes, decodes, Or.inr ⟨clean, rfl⟩⟩

/-- The verdict on a candidate depends on its bytes only if it is governed. -/
theorem SameShape.examine_eq
    (same : left.SameShape right)
    (agree :
      (Category.ofPath path).isGoverned = true →
        left.read (root.join path) = right.read (root.join path)) :
    left.examine root path = right.examine root path := by
  cases governed : (Category.ofPath path).isGoverned with
  | true => simp only [examine, readCandidate, agree governed]
  | false =>
      rcases same.read_cases (root.join path) with
        equal | ⟨former, latter, leftRead, rightRead⟩
      · simp only [examine, readCandidate, equal]
      · rw [examine_of_ungoverned governed leftRead,
          examine_of_ungoverned governed rightRead]

end FileTree

/-- Every governed candidate has the same bytes in both trees. -/
def FileTree.AgreeOnGoverned
    (left right : FileTree) (settings : Settings) : Prop :=
  ∀ candidates, left.candidates settings = .ok candidates →
    ∀ path ∈ candidates, (Category.ofPath path).isGoverned = true →
      left.read (settings.root.join path) =
        right.read (settings.root.join path)

/-- Every governed candidate has the same bytes in two runs, each on the tree
that the watcher leaves when it is told of that candidate. -/
def Watcher.AgreesOnGoverned {state : Type}
    (watcher : Watcher state) (watched : state)
    (left right : FileTree) (settings : Settings) : Prop :=
  ∀ candidates, left.candidates settings = .ok candidates →
    ∀ before path after, candidates = before ++ path :: after →
      (Category.ofPath path).isGoverned = true →
        (watcher.tell (watched, left) (before ++ [path])).2.read
            (settings.root.join path) =
          (watcher.tell (watched, right) (before ++ [path])).2.read
            (settings.root.join path)

variable
  {state : Type} {settings : Settings} {watcher : Watcher state}
  {watched : state} {left right tree : FileTree} {candidates : List Path}

theorem sameVerdicts_of_quiet
    (same : left.outline = right.outline) (quiet : watcher.KeepsTree)
    (agree : left.AgreeOnGoverned right settings)
    (found : left.candidates settings = .ok candidates) :
    SameVerdicts settings.root watcher watcher (watched, left)
      (watched, right) candidates :=
  .of_keepsTree quiet quiet fun path member =>
    (FileTree.sameShape_of_outline_eq same).examine_eq
      (agree candidates found path member)

/-- A watcher that may change the trees, but not depending on contents, leaves
trees with one outline, so that again only governed bytes can differ. -/
theorem sameVerdicts_of_respects
    (same : left.outline = right.outline)
    (respects :
      watcher.Respects fun former latter =>
        former.outline = latter.outline)
    (agree : watcher.AgreesOnGoverned watched left right settings)
    (found : left.candidates settings = .ok candidates) :
    SameVerdicts settings.root watcher watcher (watched, left)
      (watched, right) candidates := by
  intro before path after split
  obtain ⟨_, sameLater⟩ :=
    @Watcher.Respects.tell _ _ _ respects (before ++ [path])
      (watched, left) (watched, right) rfl same
  exact
    (FileTree.sameShape_of_outline_eq sameLater).examine_eq
      (agree candidates found before path after split)

theorem audit_eq_of_sameVerdicts
    (same : left.outline = right.outline)
    (sameVerdicts :
      ∀ candidates, left.candidates settings = .ok candidates →
        SameVerdicts settings.root watcher watcher (watched, left)
          (watched, right) candidates) :
    toldPaths settings watcher watched left =
        toldPaths settings watcher watched right ∧
      (audit settings watcher watched left).outcome =
        (audit settings watcher watched right).outcome := by
  have sameCandidates : left.candidates settings = right.candidates settings :=
    (FileTree.sameShape_of_outline_eq same).candidates_eq
      (FileTree.listing_eq_of_outline_eq same) settings
  obtain ⟨sameTold, sameOutcome⟩ :=
    audit_of_sameVerdicts (fun _ => by rw [sameCandidates]) sameVerdicts
  exact ⟨sameTold, sameOutcome sameCandidates⟩

/-- The bytes of a file that no governed candidate leads to make no difference
to a run: be the file unwatched, excluded or ungoverned. -/
theorem audit_rewrite
    {location : Location}
    (unjudged :
      ∀ candidates, tree.candidates settings = .ok candidates →
        ∀ path ∈ candidates, (Category.ofPath path).isGoverned = true →
          tree.locate (settings.root.join path) ≠ .ok location)
    (quiet : watcher.KeepsTree) (watched : state) (bytes : List UInt8) :
    toldPaths settings watcher watched tree =
        toldPaths settings watcher watched (tree.rewrite location bytes) ∧
      (audit settings watcher watched tree).outcome =
        (audit settings watcher watched
          (tree.rewrite location bytes)).outcome := by
  have same := tree.outline_rewrite location bytes
  have agree :
      tree.AgreeOnGoverned (tree.rewrite location bytes) settings := by
    intro candidates found path member governed
    have elsewhere := unjudged candidates found path member governed
    rw [tree.read_rewrite_of_ne elsewhere bytes]
  exact
    audit_eq_of_sameVerdicts same.symm fun candidates found =>
      sameVerdicts_of_quiet same.symm quiet agree found

/-- Two trees that differ only in the bytes of files lead to the same run, be
it to a report or to a failure, when every governed candidate has the same
bytes in both.  If the watcher changes the trees, independently of contents, the
governed candidates are to have the same bytes when they are read. -/
theorem audit_of_outline_eq
    (same : left.outline = right.outline)
    (agree :
      (watcher.KeepsTree ∧ left.AgreeOnGoverned right settings) ∨
        ((watcher.Respects fun former latter =>
            former.outline = latter.outline) ∧
          watcher.AgreesOnGoverned watched left right settings)) :
    toldPaths settings watcher watched left =
        toldPaths settings watcher watched right ∧
      (audit settings watcher watched left).outcome =
        (audit settings watcher watched right).outcome := by
  apply audit_eq_of_sameVerdicts same
  intro candidates found
  rcases agree with ⟨quiet, agree⟩ | ⟨respects, agree⟩
  · exact sameVerdicts_of_quiet same quiet agree found
  · exact sameVerdicts_of_respects same respects agree found

/-- A script and a link to it, among files with other bytes: one that is
excluded, one that is not governed and one that is not watched. -/
def surroundedTree (bytes : List UInt8) : FileTree :=
  FileTree.empty.editAll
    [.file (Path.ofString "lib/a.py") [0x23],
      .link (Path.ofString "lib/z.py") (Path.ofString "a.py"),
      .file (Path.ofString "lib/gen/b.cpp") bytes,
      .file (Path.ofString "lib/notes.txt") bytes,
      .file (Path.ofString "docs/c.hpp") bytes]

/-- Settings that watch one directory and exclude what is generated in it. -/
def surroundedSettings : Settings where
  root := Path.ofString "."
  includeDirs := [Path.ofString "lib"]
  includeFiles := []
  exclude := ["lib/gen/*"]
  followLinks := false
  maxDepth := 64

theorem surroundedTree_candidates :
    (surroundedTree []).candidates surroundedSettings =
      .ok
        [Path.ofString "lib/a.py", Path.ofString "lib/notes.txt",
          Path.ofString "lib/z.py"] := by
  decide +kernel

/-- What is written when a candidate is announced. -/
def scribbles : List Edit :=
  [.file (Path.ofString "lib/a.py") [0x23, 0x0A]]

/-- A watcher that counts what it is told of and writes to the script. -/
def scribe : Watcher Nat :=
  fun world _ => (world.1 + 1, world.2.editAll scribbles)

theorem scribe_respects :
    scribe.Respects fun former latter => former.outline = latter.outline :=
  FileTree.keptByEdits_outline.respects (fun count _ => count + 1)
    (fun _ _ => scribbles)

theorem scribe_agreesOnGoverned :
    scribe.AgreesOnGoverned 0 (surroundedTree []) (surroundedTree [0xFF])
      surroundedSettings := by
  intro candidates found before path after split governed
  rw [surroundedTree_candidates] at found
  cases found
  -- The candidate is the first, the second, which is not governed, or the
  -- third of three.
  rcases before with _ | ⟨_, _ | ⟨_, _ | ⟨_, _ | ⟨_, _⟩⟩⟩⟩ <;> cases split
  · decide +kernel
  · exact absurd governed (by decide +kernel)
  · decide +kernel

/-- The three files can hold what is no text: the run reads the ungoverned one
without decoding it, and the other two not at all, whether the watcher does
nothing or writes to a candidate. -/
theorem surroundedTree_audit_of_outline_eq :
    (surroundedTree []).outline = (surroundedTree [0xFF]).outline ∧
      Watcher.silent.KeepsTree ∧
      (surroundedTree []).AgreeOnGoverned (surroundedTree [0xFF])
        surroundedSettings ∧
      (audit surroundedSettings Watcher.silent () (surroundedTree [])).outcome =
        (audit surroundedSettings Watcher.silent ()
          (surroundedTree [0xFF])).outcome ∧
      (audit surroundedSettings scribe 0 (surroundedTree [])).outcome =
        (audit surroundedSettings scribe 0 (surroundedTree [0xFF])).outcome := by
  have same :
      (surroundedTree []).outline = (surroundedTree [0xFF]).outline := by
    rfl
  have agree :
      (surroundedTree []).AgreeOnGoverned (surroundedTree [0xFF])
        surroundedSettings := by
    intro candidates found
    rw [surroundedTree_candidates] at found
    cases found
    decide +kernel
  have changed :=
    audit_of_outline_eq same
      (Or.inr ⟨scribe_respects, scribe_agreesOnGoverned⟩)
  exact
    ⟨same, Watcher.silent_keepsTree, agree,
      (audit_of_outline_eq same
        (Or.inl ⟨Watcher.silent_keepsTree, agree⟩)).2,
      changed.2⟩

end HeaderAudit
