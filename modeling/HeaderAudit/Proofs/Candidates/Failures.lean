import HeaderAudit.Proofs.Candidates
import HeaderAudit.Proofs.Walk.Faults

namespace HeaderAudit.FileTree

/-- Below a watched directory, and no deeper than allowed, a link obstructs
the walk. -/
def IsObstructed (tree : FileTree) (settings : Settings) : Prop :=
  ∃ directory ∈ settings.includeDirs,
    tree.isDirectory (settings.root.join directory) = true ∧
      ∃ around outer name,
        tree.Reaches settings.followLinks (settings.root.join directory)
            around outer ∧
          outer.length < settings.maxDepth ∧
            tree.Obstructs settings.followLinks around outer name

/-- Below a watched directory, and no deeper than allowed, a directory is
unreadable. -/
def IsBarred (tree : FileTree) (settings : Settings) : Prop :=
  ∃ directory ∈ settings.includeDirs,
    tree.isDirectory (settings.root.join directory) = true ∧
      ∃ around outer,
        tree.Reaches settings.followLinks (settings.root.join directory)
            around outer ∧
          outer.length < settings.maxDepth ∧
            around.location ∈ tree.unreadable

variable {tree : FileTree} {settings : Settings}

theorem not_isBarred_of_unreadable_eq_nil (readable : tree.unreadable = []) :
    ¬ tree.IsBarred settings := by
  intro barred
  obtain ⟨_, _, _, around, _, _, _, refused⟩ := barred
  rw [readable] at refused
  cases refused

theorem IsObstructed.follows
    (obstructed : tree.IsObstructed settings) :
    settings.followLinks = true := by
  obtain ⟨_, _, _, _, _, _, _, _, obstructs⟩ := obstructed
  exact obstructs.1

theorem watchedFiles_eq_error_iff {directory : Path} {failure : Failure} :
    tree.watchedFiles settings directory = .error failure ↔
      tree.isDirectory (settings.root.join directory) = true ∧
        ∃ fault,
          tree.walk settings.followLinks settings.maxDepth
              (settings.root.join directory) = .error fault ∧
            failure = .walk fault := by
  cases there : tree.isDirectory (settings.root.join directory) with
  | false => simp [watchedFiles, there]
  | true =>
      cases walked :
          tree.walk settings.followLinks settings.maxDepth
            (settings.root.join directory) with
      | ok files => simp [watchedFiles, there, walked]
      | error fault =>
          simp only [watchedFiles, there, walked, if_true, true_and,
            Except.error.injEq, exists_eq_left']
          exact eq_comm

/-- The failures to find the candidates, in the order in which they are looked
for. -/
theorem candidates_eq_error_iff {failure : Failure} :
    tree.candidates settings = .error failure ↔
      (tree.isDirectory settings.root = false ∧
          failure = .rootMissing settings.root) ∨
        (tree.isDirectory settings.root = true ∧
            ∃ bad,
              Exclusion.ofEntries settings.exclude = .error bad ∧
                failure = .badExclusion bad) ∨
          (tree.isDirectory settings.root = true ∧
            (∃ exclusion,
              Exclusion.ofEntries settings.exclude = .ok exclusion) ∧
              ∃ fault,
                settings.includeDirs.mapM (tree.watchedFiles settings) =
                    .error (.walk fault) ∧
                  failure = .walk fault) := by
  unfold FileTree.candidates
  cases tree.isDirectory settings.root with
  | false => simp [eq_comm]
  | true =>
      simp only [Bool.not_true, Bool.false_eq_true, if_false, false_and,
        false_or, true_and, Bool.true_eq_false]
      rw [bind_eq_error_iff, mapError_eq_error_iff]
      refine or_congr ?_ ?_
      · simp only [eq_comm]
      · constructor
        · intro failed
          obtain ⟨exclusion, read, lost⟩ := failed
          refine ⟨⟨exclusion, mapError_eq_ok_iff.1 read⟩, ?_⟩
          rcases bind_eq_error_iff.1 lost with failed | ⟨_, _, impossible⟩
          · obtain ⟨_, _, directoryFailed⟩ :=
              exists_error_of_mapM_eq_error failed
            obtain ⟨_, fault, _, rfl⟩ :=
              watchedFiles_eq_error_iff.1 directoryFailed
            exact ⟨fault, failed, rfl⟩
          · cases impossible
        · intro parts
          obtain ⟨⟨exclusion, read⟩, fault, failed, rfl⟩ := parts
          exact
            ⟨exclusion, mapError_eq_ok_iff.2 read,
              bind_eq_error_iff.2 (Or.inl failed)⟩

/-- A watched directory that is there has to be walked to the end. -/
theorem exists_candidates_iff_walks :
    (∃ candidates, tree.candidates settings = .ok candidates) ↔
      tree.isDirectory settings.root = true ∧
        (∃ exclusion,
          Exclusion.ofEntries settings.exclude = .ok exclusion) ∧
          ¬ ∃ directory ∈ settings.includeDirs,
            tree.isDirectory (settings.root.join directory) = true ∧
              ¬ ∃ files,
                tree.walk settings.followLinks settings.maxDepth
                  (settings.root.join directory) = .ok files := by
  have succeeds (directory : Path) :
      (∃ files, tree.watchedFiles settings directory = .ok files) ↔
        (tree.isDirectory (settings.root.join directory) = true →
          ∃ files,
            tree.walk settings.followLinks settings.maxDepth
              (settings.root.join directory) = .ok files) := by
    simp only [watchedFiles_eq_ok_iff]
    cases tree.isDirectory (settings.root.join directory) with
    | false => simp
    | true =>
        constructor
        · intro given _
          obtain ⟨_, either⟩ := given
          rcases either with ⟨_, found, walked, _⟩ | ⟨impossible, _⟩
          · exact ⟨found, walked⟩
          · cases impossible
        · intro walks
          obtain ⟨found, walked⟩ := walks rfl
          exact ⟨_, Or.inl ⟨rfl, found, walked, rfl⟩⟩
  rw [exists_candidates_iff]
  simp only [succeeds, not_exists, not_and, not_forall, not_not]

theorem exists_walk_failure_iff :
    (∃ fault, tree.candidates settings = .error (.walk fault)) ↔
      tree.isDirectory settings.root = true ∧
        (∃ exclusion,
          Exclusion.ofEntries settings.exclude = .ok exclusion) ∧
          ∃ directory ∈ settings.includeDirs,
            tree.isDirectory (settings.root.join directory) = true ∧
              ¬ ∃ files,
                tree.walk settings.followLinks settings.maxDepth
                  (settings.root.join directory) = .ok files := by
  constructor
  · intro given
    obtain ⟨fault, lost⟩ := given
    rcases candidates_eq_error_iff.1 lost with
      ⟨_, impossible⟩ | ⟨_, _, _, impossible⟩ | ⟨rootThere, usable, _⟩
    · cases impossible
    · cases impossible
    · refine ⟨rootThere, usable, ?_⟩
      by_contra walks
      obtain ⟨_, found⟩ :=
        exists_candidates_iff_walks.2 ⟨rootThere, usable, walks⟩
      rw [lost] at found
      cases found
  · intro parts
    obtain ⟨rootThere, ⟨exclusion, read⟩, stopped⟩ := parts
    cases found : tree.candidates settings with
    | ok candidates =>
        exact absurd stopped (exists_candidates_iff_walks.1 ⟨_, found⟩).2.2
    | error failure =>
        rcases candidates_eq_error_iff.1 found with
          ⟨missing, _⟩ | ⟨_, _, unread, _⟩ | ⟨_, _, fault, _, rfl⟩
        · rw [rootThere] at missing
          cases missing
        · rw [read] at unread
          cases unread
        · exact ⟨fault, rfl⟩

theorem candidates_eq_rootMissing_iff {root : Path} :
    tree.candidates settings = .error (.rootMissing root) ↔
      tree.isDirectory settings.root = false ∧ root = settings.root := by
  simp [candidates_eq_error_iff]

theorem candidates_eq_badExclusion_iff {bad : Exclusion.BadEntry} :
    tree.candidates settings = .error (.badExclusion bad) ↔
      tree.isDirectory settings.root = true ∧
        Exclusion.ofEntries settings.exclude = .error bad := by
  simp [candidates_eq_error_iff]

/-- The paths of the directories that the walks of a run reach above their
limit of depth are not too long to be looked up. -/
def HasShortWalks (tree : FileTree) (settings : Settings) : Prop :=
  ∀ directory ∈ settings.includeDirs, ∀ around outer,
    tree.Reaches settings.followLinks (settings.root.join directory) around
        outer →
      outer.length < settings.maxDepth →
        around.path.bytes.length ≤ longestPath

theorem HasShortWalks.exists_failing_walk_iff
    (short : tree.HasShortWalks settings) :
    (∃ directory ∈ settings.includeDirs,
        tree.isDirectory (settings.root.join directory) = true ∧
          ¬ ∃ files,
            tree.walk settings.followLinks settings.maxDepth
              (settings.root.join directory) = .ok files) ↔
      tree.IsBarred settings ∨ tree.IsObstructed settings := by
  unfold IsBarred IsObstructed
  rw [← exists_or]
  refine exists_congr fun directory => ?_
  rw [← and_or_left]
  refine and_congr_right fun member => ?_
  rw [← and_or_left]
  refine and_congr_right fun there => ?_
  rw [exists_walk_iff_of_short there (short directory member), not_and_or,
    not_not, not_not]

/-- Where the watched directories are short and the depth is small, no walk
comes to a path that is too long. -/
theorem hasShortWalks_of_length_le
    (short :
      ∀ directory ∈ settings.includeDirs,
        (settings.root.join directory).bytes.length +
            settings.maxDepth * (longestName + 1) ≤ longestPath) :
    tree.HasShortWalks settings := by
  intro directory member around outer reached shallow
  have bounded := short directory member
  have levels :=
    Nat.mul_le_mul_right (longestName + 1) (Nat.le_of_lt shallow)
  calc
    around.path.bytes.length
        ≤ (settings.root.join directory).bytes.length +
            outer.length * (longestName + 1) := reached.length_path_le
    _ ≤ longestPath := by omega

/-- How the search for the candidates ends.  The root is looked at first; then
the first entry of the exclusion list that is no pattern is told; then a walk
fails exactly when a directory is unreadable or links are followed and one of
them obstructs it, whatever the list excludes.  Nothing else can keep the
candidates from being found. -/
theorem candidates_outcome (short : tree.HasShortWalks settings) :
    (∀ root,
      tree.candidates settings = .error (.rootMissing root) ↔
        tree.isDirectory settings.root = false ∧ root = settings.root) ∧
    (∀ bad,
      tree.candidates settings = .error (.badExclusion bad) ↔
        tree.isDirectory settings.root = true ∧
          ∃ before after,
            settings.exclude = before ++ bad.entry :: after ∧
              (∀ entry ∈ before, ∃ tokens,
                Wildcard.parse entry.toList = .ok tokens) ∧
              Wildcard.parse bad.entry.toList = .error bad.cause) ∧
    ((∃ bad, tree.candidates settings = .error (.badExclusion bad)) ↔
      tree.isDirectory settings.root = true ∧
        ∃ entry ∈ settings.exclude, ∃ cause,
          Wildcard.parse entry.toList = .error cause) ∧
    ((∃ fault, tree.candidates settings = .error (.walk fault)) ↔
      tree.isDirectory settings.root = true ∧
        (∀ entry ∈ settings.exclude, ∃ tokens,
          Wildcard.parse entry.toList = .ok tokens) ∧
          (tree.IsBarred settings ∨
            settings.followLinks = true ∧ tree.IsObstructed settings)) ∧
    ((∃ candidates, tree.candidates settings = .ok candidates) ↔
      tree.isDirectory settings.root = true ∧
        (∀ entry ∈ settings.exclude, ∃ tokens,
          Wildcard.parse entry.toList = .ok tokens) ∧
          ¬ tree.IsBarred settings ∧
            (settings.followLinks = true → ¬ tree.IsObstructed settings)) ∧
    (tree.unreadable = [] → ¬ tree.IsBarred settings) := by
  have usable :
      (∃ exclusion,
        Exclusion.ofEntries settings.exclude = .ok exclusion) ↔
        ∀ entry ∈ settings.exclude, ∃ tokens,
          Wildcard.parse entry.toList = .ok tokens :=
    Exclusion.exists_ofEntries_iff
  refine
    ⟨fun root => candidates_eq_rootMissing_iff, fun bad => ?_, ?_, ?_, ?_,
      not_isBarred_of_unreadable_eq_nil⟩
  · rw [candidates_eq_badExclusion_iff, Exclusion.ofEntries_eq_error_iff]
  · simp only [candidates_eq_badExclusion_iff, exists_and_left]
    rw [Exclusion.exists_ofEntries_error_iff]
  · rw [exists_walk_failure_iff, usable, short.exists_failing_walk_iff,
      and_iff_right_of_imp IsObstructed.follows]
  · have unfollowed :
        (settings.followLinks = true → ¬ tree.IsObstructed settings) ↔
          ¬ tree.IsObstructed settings :=
      ⟨fun clear obstructed => clear obstructed.follows obstructed,
        fun clear _ => clear⟩
    rw [exists_candidates_iff_walks, usable, short.exists_failing_walk_iff,
      not_or, unfollowed]

/-- Settings that watch the outer of the two directories and exclude the place
of the link. -/
def tiedSettings (followLinks : Bool) : Settings where
  root := Path.ofString "."
  includeDirs := [Path.ofString "lib"]
  includeFiles := []
  exclude := ["lib/sub/in/*"]
  followLinks := followLinks
  maxDepth := 3

/-- The link leads back to the start of the walk.  Although its place is
excluded it is fatal, unless links are not followed. -/
theorem tiedTree_candidates_outcome :
    (∀ followLinks, tiedTree.HasShortWalks (tiedSettings followLinks)) ∧
      (∃ fault,
        tiedTree.candidates (tiedSettings true) = .error (.walk fault)) ∧
      ∃ candidates,
        tiedTree.candidates (tiedSettings false) = .ok candidates := by
  have short (followLinks : Bool) :
      tiedTree.HasShortWalks (tiedSettings followLinks) := by
    apply hasShortWalks_of_length_le
    cases followLinks <;> decide
  have usable (followLinks : Bool) :
      ∀ entry ∈ (tiedSettings followLinks).exclude, ∃ tokens,
        Wildcard.parse entry.toList = .ok tokens := by
    intro entry member
    rw [List.mem_singleton.1 member]
    exact ⟨_, rfl⟩
  have rootThere : tiedTree.isDirectory (Path.ofString ".") = true := by
    decide +kernel
  have inside :
      tiedTree.Reaches true (Path.ofString "./lib")
        ⟨Path.ofString "./lib/sub/in", tiedLocation ["in", "sub", "lib"]⟩
        [⟨Path.ofString "./lib/sub", tiedLocation ["sub", "lib"]⟩,
          ⟨Path.ofString "./lib", tiedLocation ["lib"]⟩] :=
    .entry ((tiedLocation ["in"]).head (by decide))
      (.entry ((tiedLocation ["sub"]).head (by decide))
        (.start (by decide +kernel)) (by decide +kernel))
      (by decide +kernel)
  have obstructs :
      tiedTree.Obstructs true
        ⟨Path.ofString "./lib/sub/in", tiedLocation ["in", "sub", "lib"]⟩
        [⟨Path.ofString "./lib/sub", tiedLocation ["sub", "lib"]⟩,
          ⟨Path.ofString "./lib", tiedLocation ["lib"]⟩]
        ((tiedLocation ["out"]).head (by decide)) :=
    ⟨rfl, ⟨Path.ofString "../..", by decide +kernel⟩,
      Or.inr
        ⟨tiedLocation ["lib"], by decide +kernel, _,
          List.mem_cons_of_mem _ (List.mem_cons_of_mem _ List.mem_cons_self),
          rfl⟩⟩
  have obstructed : tiedTree.IsObstructed (tiedSettings true) :=
    ⟨_, List.mem_singleton_self _, by decide +kernel, _, _, _, inside,
      by decide, obstructs⟩
  obtain ⟨_, _, _, fails, _⟩ := candidates_outcome (short true)
  obtain ⟨_, _, _, _, succeeds, permitted⟩ :=
    candidates_outcome (short false)
  exact
    ⟨short, fails.2 ⟨rootThere, usable true, Or.inr ⟨rfl, obstructed⟩⟩,
      succeeds.2
        ⟨rootThere, usable false, permitted (by decide +kernel), nofun⟩⟩

end HeaderAudit.FileTree
