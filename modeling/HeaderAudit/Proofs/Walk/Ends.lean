import HeaderAudit.FileTree.Edit
import HeaderAudit.Proofs.Walk
import Mathlib.Algebra.Group.Nat.Defs
import Mathlib.Data.List.MinMax
import Mathlib.Data.List.Perm.Subperm

/-! A directory that a walk is inside of lies one name deeper than the one
around it, or is what a followed link leads to and none of those around it. So
between two followed links the walk goes only as deep as the tree is, and it
follows fewer links on one path than the tree has directories. A derivation of
`WalkEnds` is the finite course of a walk that knows no limit. -/

namespace HeaderAudit

namespace FileTree

/-- The locations of the directories of a tree, its top included. -/
def directories (tree : FileTree) : List Location :=
  [] :: (tree.entries.filter (·.2 = .directory)).map Prod.fst

/-- The greatest number of names that lead to a directory. -/
def height (tree : FileTree) : Nat :=
  (tree.directories.map List.length).foldr max 0

/-- No walk is ever inside of more directories than this. -/
def deepestWalk (tree : FileTree) : Nat :=
  tree.directories.length * (tree.height + 1)

/-- From a directory, and inside of these, a walk goes on below the entry with
a name. -/
def Descends
    (tree : FileTree) (followLinks : Bool) (ancestors : List Ancestor)
    (directory : Path) (name : EntryName) (entered : Ancestor) : Prop :=
  ∃ here,
    tree.locate directory = .ok here ∧
      tree.descent followLinks ancestors (directory.entry name)
        (name :: here) = .ok (some entered)

/-- The directory that a walk is in, the ones around it from the inside out,
and where the links on the way led, from the last to the first. -/
inductive Inside (tree : FileTree) (followLinks : Bool) (start : Path) :
    Ancestor → List Ancestor → List Location → Prop
  | start {here : Location} :
      tree.find start = .ok (here, .directory) →
      Inside tree followLinks start ⟨start, here⟩ [] []
  | entry {directory entered : Ancestor} {outer : List Ancestor}
      {targets : List Location} (name : EntryName) :
      Inside tree followLinks start directory outer targets →
      tree.entryNode? directory.path name = some .directory →
      tree.Descends followLinks (directory :: outer) directory.path name
        entered →
      Inside tree followLinks start entered (directory :: outer) targets
  | link {directory entered : Ancestor} {outer : List Ancestor}
      {targets : List Location} {target : Path} (name : EntryName) :
      Inside tree followLinks start directory outer targets →
      tree.entryNode? directory.path name = some (.link target) →
      tree.Descends followLinks (directory :: outer) directory.path name
        entered →
      Inside tree followLinks start entered (directory :: outer)
        (entered.location :: targets)

/-- A walk without a limit of depth comes to its end with this result. -/
inductive WalkEnds (tree : FileTree) (followLinks : Bool) :
    Ancestor → List Ancestor → Except WalkError (List Path) → Prop
  | unreachable {directory : Ancestor} {outer : List Ancestor}
      {cause : LookupError} :
      tree.openDirectory directory.path = .error cause →
      WalkEnds tree followLinks directory outer
        (.error (.unreachable directory.path cause))
  | listed {directory : Ancestor} {outer : List Ancestor} {here : Location}
      {below : Ancestor → Except WalkError (List Path)} :
      tree.openDirectory directory.path = .ok here →
      (∀ name ∈ tree.listing here, ∀ entered,
        tree.Descends followLinks (directory :: outer) directory.path name
            entered →
          WalkEnds tree followLinks entered (directory :: outer)
            (below entered)) →
      WalkEnds tree followLinks directory outer
        (List.flatten <$>
          (tree.listing here).mapM
            (tree.entryFiles followLinks (directory :: outer) below
              directory.path here))

variable {tree : FileTree} {followLinks : Bool} {start : Path}

/-! ## Directories of a tree -/

theorem mem_directories
    {location : Location}
    (present : tree.node? location = some .directory) :
    location ∈ tree.directories := by
  unfold directories
  cases location with
  | nil => exact List.mem_cons_self
  | cons name parent =>
      right
      obtain ⟨entry, found, isDirectory⟩ := Option.map_eq_some_iff.1 present
      have located : entry.1 = name :: parent :=
        isAt_iff.1 (List.find?_some found)
      have member := List.mem_of_find?_eq_some found
      apply List.mem_map.2
      refine ⟨entry, ?_, located⟩
      simp [member, isDirectory]

theorem length_le_height
    {location : Location}
    (present : tree.node? location = some .directory) :
    location.length ≤ tree.height := by
  have member : location.length ∈ tree.directories.map List.length :=
    List.mem_map_of_mem (mem_directories present)
  exact List.le_max_of_le' 0 member (Nat.le_refl _)

/-- Different directories are no more than the directories of the tree. -/
theorem length_le_directories
    {locations : List Location} (distinct : locations.Nodup)
    (present :
      ∀ location ∈ locations, tree.node? location = some .directory) :
    locations.length ≤ tree.directories.length := by
  apply List.Subperm.length_le
  apply distinct.subperm
  intro location member
  exact mem_directories (present location member)

/-! ## One step down -/

theorem entryNode?_of_locate
    {directory : Path} {here : Location}
    (located : tree.locate directory = .ok here) (name : EntryName) :
    tree.entryNode? directory name = tree.node? (name :: here) := by
  simp only [entryNode?, located]

namespace Descends

variable
  {ancestors : List Ancestor} {directory : Path} {name : EntryName}
  {entered : Ancestor}

/-- An entry that is a directory is entered where it is, without a look at
the directories around it. -/
theorem of_directory_iff
    {here : Location} (located : tree.locate directory = .ok here)
    (node : tree.entryNode? directory name = some .directory) :
    tree.Descends followLinks ancestors directory name entered ↔
      entered = ⟨directory.entry name, name :: here⟩ := by
  rw [entryNode?_of_locate located] at node
  constructor
  · intro descends
    obtain ⟨again, locatedAgain, descended⟩ := descends
    rw [located] at locatedAgain
    cases locatedAgain
    simp only [descent, node] at descended
    cases descended
    rfl
  · intro same
    refine ⟨here, located, ?_⟩
    simp only [descent, node, same]

/-- A link that is entered leads to a directory that the walk is not inside
of. -/
theorem of_link
    {target : Path}
    (node : tree.entryNode? directory name = some (.link target))
    (descends :
      tree.Descends followLinks ancestors directory name entered) :
    tree.find (directory.entry name) = .ok (entered.location, .directory) ∧
      entered.path = directory.entry name ∧
        ∀ ancestor ∈ ancestors, ancestor.location ≠ entered.location := by
  obtain ⟨here, located, descended⟩ := descends
  rw [entryNode?_of_locate located] at node
  simp only [descent, node] at descended
  split at descended
  · split at descended
    · cases descended
    · rename_i location found
      split at descended
      · cases descended
      · rename_i fresh
        cases descended
        refine ⟨found, rfl, ?_⟩
        intro ancestor member same
        have different := List.find?_eq_none.1 fresh ancestor member
        exact different (decide_eq_true same)
    · cases descended
  · cases descended

end Descends

/-! ## The directories that a walk is inside of -/

namespace Inside

variable
  {directory : Ancestor} {outer : List Ancestor} {targets : List Location}

theorem exists_find_start
    (inside : tree.Inside followLinks start directory outer targets) :
    ∃ here, tree.find start = .ok (here, .directory) := by
  induction inside with
  | start found => exact ⟨_, found⟩
  | entry _ _ _ _ inductionHypothesis => exact inductionHypothesis
  | link _ _ _ _ inductionHypothesis => exact inductionHypothesis

theorem node?_location
    (inside : tree.Inside followLinks start directory outer targets) :
    tree.node? directory.location = some .directory := by
  cases inside with
  | start found => exact (find_eq_ok_iff.1 found).2
  | entry _ _ node descends =>
      obtain ⟨here, located, _⟩ := id descends
      rw [(Descends.of_directory_iff located node).1 descends]
      rwa [entryNode?_of_locate located] at node
  | link _ _ node descends =>
      exact (find_eq_ok_iff.1 (descends.of_link node).1).2

/-- The location that is kept for a directory is the one that its path leads
to. -/
theorem location_eq
    (inside : tree.Inside followLinks start directory outer targets)
    {here : Location} (located : tree.locate directory.path = .ok here) :
    directory.location = here := by
  cases inside with
  | start found =>
      rw [(find_eq_ok_iff.1 found).1] at located
      cases located
      rfl
  | entry _ _ node descends =>
      obtain ⟨around, aroundLocated, _⟩ := id descends
      rw [(Descends.of_directory_iff aroundLocated node).1 descends]
        at located ⊢
      rw [entryNode?_of_locate aroundLocated] at node
      exact
        (location_of_locate_entry aroundLocated node (by simp)
          located).symm
  | link _ _ node descends =>
      obtain ⟨found, samePath, _⟩ := descends.of_link node
      rw [← samePath, find_eq_ok_iff, located] at found
      cases found.1
      rfl

/-- An ordinary entry lies one name below the directory that it is in. -/
theorem length_location_entry
    {entered : Ancestor} {name : EntryName}
    (inside : tree.Inside followLinks start directory outer targets)
    (node : tree.entryNode? directory.path name = some .directory)
    (descends :
      tree.Descends followLinks (directory :: outer) directory.path name
        entered) :
    entered.location.length = directory.location.length + 1 := by
  obtain ⟨here, located, _⟩ := id descends
  rw [(Descends.of_directory_iff located node).1 descends,
    inside.location_eq located, List.length_cons]

/-- Between two followed links a walk goes no deeper than the tree. -/
theorem length_le
    (inside : tree.Inside followLinks start directory outer targets) :
    outer.length ≤
      targets.length * (tree.height + 1) + directory.location.length := by
  induction inside with
  | start _ => exact Nat.zero_le _
  | entry _ inside node descends inductionHypothesis =>
      have deeper := inside.length_location_entry node descends
      rw [List.length_cons]
      omega
  | link _ inside _ _ inductionHypothesis =>
      have bounded := length_le_height inside.node?_location
      rw [List.length_cons, List.length_cons, Nat.succ_mul]
      omega

/-- Whatever a walk enters is an ordinary entry or what a link leads to. -/
theorem exists_of_descends
    {entered : Ancestor} {name : EntryName}
    (inside : tree.Inside followLinks start directory outer targets)
    (descends :
      tree.Descends followLinks (directory :: outer) directory.path name
        entered) :
    ∃ deeperTargets,
      tree.Inside followLinks start entered (directory :: outer)
        deeperTargets := by
  obtain ⟨here, located, descended⟩ := id descends
  have node := entryNode?_of_locate located name
  cases present : tree.node? (name :: here) with
  | none => simp [descent, present] at descended
  | some found =>
      rw [present] at node
      cases found with
      | directory => exact ⟨targets, inside.entry name node descends⟩
      | link target => exact ⟨_, inside.link name node descends⟩
      | file content => simp [descent, present] at descended
      | socket => simp [descent, present] at descended

/-- The walk is inside of the directory that it started in and of all that the
followed links led to. -/
theorem exists_ancestor
    {startLocation location : Location}
    (startLocated : tree.locate start = .ok startLocation)
    (inside : tree.Inside followLinks start directory outer targets)
    (member : location ∈ startLocation :: targets) :
    ∃ ancestor ∈ directory :: outer, ancestor.location = location := by
  induction inside with
  | @start here found =>
      rw [(find_eq_ok_iff.1 found).1] at startLocated
      cases startLocated
      exact ⟨_, List.mem_cons_self, (List.mem_singleton.1 member).symm⟩
  | entry _ _ _ _ inductionHypothesis =>
      obtain ⟨ancestor, ancestorMember, same⟩ := inductionHypothesis member
      exact ⟨ancestor, List.mem_cons_of_mem _ ancestorMember, same⟩
  | @link _ entered _ targets _ _ _ _ _ inductionHypothesis =>
      have either :
          location = entered.location ∨ location ∈ startLocation :: targets := by
        simp only [List.mem_cons] at member ⊢
        tauto
      rcases either with rfl | before
      · exact ⟨entered, List.mem_cons_self, rfl⟩
      · obtain ⟨ancestor, ancestorMember, same⟩ := inductionHypothesis before
        exact ⟨ancestor, List.mem_cons_of_mem _ ancestorMember, same⟩

/-- What the followed links led to are different directories, none of them the
one that the walk started in. -/
theorem nodup_targets
    {startLocation : Location}
    (startLocated : tree.locate start = .ok startLocation)
    (inside : tree.Inside followLinks start directory outer targets) :
    (startLocation :: targets).Nodup := by
  induction inside with
  | start _ => simp
  | entry _ _ _ _ inductionHypothesis => exact inductionHypothesis
  | @link _ entered _ targets _ _ inside node descends
      inductionHypothesis =>
      obtain ⟨_, _, fresh⟩ := descends.of_link node
      have new : entered.location ∉ startLocation :: targets := by
        intro member
        obtain ⟨ancestor, ancestorMember, same⟩ :=
          inside.exists_ancestor startLocated member
        exact fresh ancestor ancestorMember same
      have swapped :
          (entered.location :: startLocation :: targets).Nodup :=
        List.nodup_cons.2 ⟨new, inductionHypothesis⟩
      exact (List.Perm.swap _ _ _).nodup swapped

theorem node?_of_mem_targets
    {startLocation location : Location}
    (startLocated : tree.locate start = .ok startLocation)
    (inside : tree.Inside followLinks start directory outer targets)
    (member : location ∈ startLocation :: targets) :
    tree.node? location = some .directory := by
  induction inside with
  | @start here found =>
      obtain ⟨located, present⟩ := find_eq_ok_iff.1 found
      rw [located] at startLocated
      cases startLocated
      rw [List.mem_singleton.1 member]
      exact present
  | entry _ _ _ _ inductionHypothesis => exact inductionHypothesis member
  | link name inside node descends inductionHypothesis =>
      rcases List.mem_cons.1 member with rfl | before
      · exact inductionHypothesis List.mem_cons_self
      · rcases List.mem_cons.1 before with rfl | earlier
        · exact (inside.link name node descends).node?_location
        · exact inductionHypothesis (List.mem_cons_of_mem _ earlier)

/-- A walk is never inside of more directories than the tree allows, whatever
its limit of depth. -/
theorem length_le_deepestWalk
    (inside : tree.Inside followLinks start directory outer targets) :
    (directory :: outer).length ≤ tree.deepestWalk := by
  obtain ⟨startLocation, startFound⟩ := inside.exists_find_start
  have startLocated := (find_eq_ok_iff.1 startFound).1
  have links : (startLocation :: targets).length ≤ tree.directories.length :=
    length_le_directories (inside.nodup_targets startLocated)
      fun _ member => inside.node?_of_mem_targets startLocated member
  have shallow := length_le_height inside.node?_location
  have deep := inside.length_le
  calc
    (directory :: outer).length
        ≤ targets.length * (tree.height + 1) + tree.height + 1 := by
      rw [List.length_cons]
      omega
    _ = (startLocation :: targets).length * (tree.height + 1) := by
      rw [List.length_cons, Nat.succ_mul, Nat.add_assoc]
    _ ≤ tree.deepestWalk := Nat.mul_le_mul_right _ links

end Inside

/-! ## The end of a walk -/

/-- What an entry gives depends on the rest of the walk only through the
directory that is entered. -/
theorem entryFiles_congr
    {ancestors : List Ancestor} {directory : Path} {here : Location}
    {name : EntryName}
    {first second : Ancestor → Except WalkError (List Path)}
    (located : tree.locate directory = .ok here)
    (same :
      ∀ entered,
        tree.Descends followLinks ancestors directory name entered →
          first entered = second entered) :
    tree.entryFiles followLinks ancestors first directory here name =
      tree.entryFiles followLinks ancestors second directory here name := by
  unfold entryFiles
  simp only
  split
  · rfl
  · rfl
  · rename_i entered descended
    rw [same entered ⟨here, located, descended⟩]

/-- There is one result that a walk can end with. -/
theorem WalkEnds.unique
    {directory : Ancestor} {outer : List Ancestor}
    {first second : Except WalkError (List Path)}
    (left : tree.WalkEnds followLinks directory outer first)
    (right : tree.WalkEnds followLinks directory outer second) :
    first = second := by
  induction left generalizing second with
  | unreachable lost =>
      cases right with
      | unreachable lostAgain =>
          rw [lost] at lostAgain
          cases lostAgain
          rfl
      | listed opened _ =>
          rw [lost] at opened
          cases opened
  | listed opened _ inductionHypothesis =>
      cases right with
      | unreachable lost =>
          rw [lost] at opened
          cases opened
      | listed openedAgain belowEnds =>
          rw [opened] at openedAgain
          cases openedAgain
          congr 1
          apply mapM_congr
          intro name listed
          apply entryFiles_congr (openDirectory_eq_ok_iff.1 opened).1
          intro entered descends
          exact
            inductionHypothesis name listed entered descends
              (belowEnds name listed entered descends)

/-- A limit of depth that leaves room for all the directories that the walk
can be inside of is no limit. -/
theorem walkEnds_filesBelow (depth : Nat) :
    ∀ {directory : Ancestor} {outer : List Ancestor}
      {targets : List Location},
      tree.Inside followLinks start directory outer targets →
        tree.deepestWalk ≤ outer.length + depth →
          tree.WalkEnds followLinks directory outer
            (tree.filesBelow followLinks depth directory outer) := by
  induction depth with
  | zero =>
      intro directory outer targets inside enough
      have bounded := inside.length_le_deepestWalk
      rw [List.length_cons] at bounded
      omega
  | succ depth inductionHypothesis =>
      intro directory outer targets inside enough
      unfold filesBelow
      cases opened : tree.openDirectory directory.path with
      | error cause => exact .unreachable opened
      | ok here =>
          refine .listed opened ?_
          intro name _ entered descends
          have room : tree.deepestWalk ≤ (directory :: outer).length + depth := by
            rw [List.length_cons]
            omega
          obtain ⟨deeperTargets, deeper⟩ := inside.exists_of_descends descends
          exact inductionHypothesis deeper room

/-- A walk ends without a limit of depth, and a limit that is large enough for
the tree changes nothing.  The links that are followed on one path lead to
different directories, none of them the start, and the path is no longer than
the tree allows.  Ordinary directories are entered also when the walk is inside
of them already. -/
theorem walk_ends
    (there : tree.isDirectory start = true) (followLinks : Bool) :
    ∃ startLocation,
      tree.find start = .ok (startLocation, .directory) ∧
        (∀ directory outer targets,
          tree.Inside followLinks start directory outer targets →
            (startLocation :: targets).Nodup ∧
              (∀ location ∈ startLocation :: targets,
                tree.node? location = some .directory) ∧
              (directory :: outer).length ≤ tree.deepestWalk ∧
              ∀ here name,
                tree.locate directory.path = .ok here →
                  tree.entryNode? directory.path name = some .directory →
                    tree.Inside followLinks start
                      ⟨directory.path.entry name, name :: here⟩
                      (directory :: outer) targets) ∧
        ∃ result,
          tree.WalkEnds followLinks ⟨start, startLocation⟩ [] result ∧
            ∀ maxDepth,
              tree.deepestWalk ≤ maxDepth →
                tree.walk followLinks maxDepth start = result := by
  obtain ⟨startLocation, found⟩ := isDirectory_iff.1 there
  have located := (find_eq_ok_iff.1 found).1
  refine ⟨startLocation, found, ?_, ?_⟩
  · intro directory outer targets inside
    refine
      ⟨inside.nodup_targets located,
        fun _ member => inside.node?_of_mem_targets located member,
        inside.length_le_deepestWalk, ?_⟩
    intro here name directoryLocated node
    apply inside.entry name node
    exact (Descends.of_directory_iff directoryLocated node).2 rfl
  · have ends (maxDepth : Nat) (enough : tree.deepestWalk ≤ maxDepth) :
        tree.WalkEnds followLinks ⟨start, startLocation⟩ []
          (tree.walk followLinks maxDepth start) := by
      have walked :
          tree.walk followLinks maxDepth start =
            tree.filesBelow followLinks maxDepth ⟨start, startLocation⟩
              [] := by
        simp only [walk, located]
      rw [walked]
      apply walkEnds_filesBelow maxDepth (.start found)
      rw [List.length_nil, Nat.zero_add]
      exact enough
    refine ⟨_, ends tree.deepestWalk (Nat.le_refl _), ?_⟩
    intro maxDepth enough
    exact (ends maxDepth enough).unique (ends _ (Nat.le_refl _))

/-- Two directories and, in the inner one, a link back to the outer one. -/
def tiedTree : FileTree :=
  FileTree.empty.editAll
    [.file (Path.ofString "lib/sub/a.cpp") [],
      .link (Path.ofString "lib/sub/in/out") (Path.ofString "../..")]

/-- Some names, the innermost first. -/
def tiedLocation (names : List String) : Location :=
  names.filterMap fun name =>
    EntryName.ofBytes? (Path.ofString name).bytes

/-- The inner directory, met again behind the link that leads out of it. -/
theorem tiedTree_inside :
    tiedTree.Inside true (Path.ofString "lib/sub")
      ⟨Path.ofString "lib/sub/in/out/sub", tiedLocation ["sub", "lib"]⟩
      [⟨Path.ofString "lib/sub/in/out", tiedLocation ["lib"]⟩,
        ⟨Path.ofString "lib/sub/in", tiedLocation ["in", "sub", "lib"]⟩,
        ⟨Path.ofString "lib/sub", tiedLocation ["sub", "lib"]⟩]
      [tiedLocation ["lib"]] := by
  have started :
      tiedTree.Inside true (Path.ofString "lib/sub")
        ⟨Path.ofString "lib/sub", tiedLocation ["sub", "lib"]⟩ [] [] :=
    .start (by decide +kernel)
  have inner :
      tiedTree.Inside true (Path.ofString "lib/sub")
        ⟨Path.ofString "lib/sub/in", tiedLocation ["in", "sub", "lib"]⟩ _
        [] :=
    started.entry ((tiedLocation ["in"]).head (by decide))
      (by decide +kernel)
      ⟨tiedLocation ["sub", "lib"], by decide +kernel, by decide +kernel⟩
  have tied :
      tiedTree.entryNode? (Path.ofString "lib/sub/in")
          ((tiedLocation ["out"]).head (by decide)) =
        some (.link (Path.ofString "../..")) := by
    decide +kernel
  have outside :
      tiedTree.Inside true (Path.ofString "lib/sub")
        ⟨Path.ofString "lib/sub/in/out", tiedLocation ["lib"]⟩ _
        [tiedLocation ["lib"]] :=
    inner.link _ tied
      ⟨tiedLocation ["in", "sub", "lib"], by decide +kernel,
        by decide +kernel⟩
  exact
    outside.entry ((tiedLocation ["sub"]).head (by decide))
      (by decide +kernel)
      ⟨tiedLocation ["lib"], by decide +kernel, by decide +kernel⟩

/-- A walk below the inner directory meets it again behind the link.  With no
limit it ends at the link when that is met for the second time; a limit can
end it before that. -/
theorem tiedTree_walk_ends :
    tiedTree.isDirectory (Path.ofString "lib/sub") = true ∧
      (∃ directory outer targets,
        tiedTree.Inside true (Path.ofString "lib/sub") directory outer
            targets ∧
          directory.location ∈ outer.map Ancestor.location ∧
          targets ≠ [] ∧
          (directory :: outer).length ≤ tiedTree.deepestWalk) ∧
      tiedTree.walk true 4 (Path.ofString "lib/sub") =
        .ok
          [Path.ofString "lib/sub/a.cpp",
            Path.ofString "lib/sub/in/out/sub/a.cpp"] ∧
      tiedTree.walk true (2 ^ 64 - 1) (Path.ofString "lib/sub") =
        .error
          (.loop (Path.ofString "lib/sub/in/out/sub/in/out")
            (Path.ofString "lib/sub/in/out")) := by
  have there : tiedTree.isDirectory (Path.ofString "lib/sub") = true := by
    decide +kernel
  obtain ⟨_, _, bounded, result, _, ends⟩ :=
    walk_ends there true
  refine
    ⟨there,
      ⟨_, _, _, tiedTree_inside, by decide +kernel, by decide,
        (bounded _ _ _ tiedTree_inside).2.2.1⟩,
      by decide +kernel, ?_⟩
  have stopped :
      tiedTree.walk true tiedTree.deepestWalk (Path.ofString "lib/sub") =
        .error
          (.loop (Path.ofString "lib/sub/in/out/sub/in/out")
            (Path.ofString "lib/sub/in/out")) := by
    decide +kernel
  have room : tiedTree.deepestWalk ≤ 2 ^ 64 - 1 := by
    decide +kernel
  calc
    tiedTree.walk true (2 ^ 64 - 1) (Path.ofString "lib/sub") = result :=
      ends _ room
    _ = tiedTree.walk true tiedTree.deepestWalk (Path.ofString "lib/sub") :=
      (ends _ (Nat.le_refl _)).symm
    _ = _ := stopped

end FileTree

end HeaderAudit
