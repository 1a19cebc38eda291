import HeaderAudit.Proofs.Walk.Faults

/-! When two paths lead to one directory, walks below them go the same ways.
This takes lookups that stay within the limits of the operating system; only
the paths that a walk really looks up count. -/

namespace HeaderAudit.FileTree

/-- Both paths lead to the same directory. -/
def LeadTogether (tree : FileTree) (first second : Path) : Prop :=
  ∃ home,
    tree.find first = .ok (home, .directory) ∧
      tree.find second = .ok (home, .directory)

/-- A walk looks up the path of its start and those of the entries of every
directory that it lists. -/
inductive WalkLooksUp
    (tree : FileTree) (followLinks : Bool) (maxDepth : Nat) (start : Path) :
    Path → Prop
  | start : WalkLooksUp tree followLinks maxDepth start start
  | entry {around : Ancestor} {outer : List Ancestor} {name : EntryName}
      {node : Node} :
      tree.Reaches followLinks start around outer →
      outer.length < maxDepth →
      tree.entryNode? around.path name = some node →
      WalkLooksUp tree followLinks maxDepth start (around.path.entry name)

variable
  {tree : FileTree} {followLinks : Bool} {maxDepth : Nat}
  {start first second directory path : Path} {around : Ancestor}
  {outer : List Ancestor} {name : EntryName}

/-! ## What a walk finds where it has been -/

theorem Reaches.exists_of_enters
    (reached : tree.Reaches followLinks start around outer)
    (unobstructed : ¬ tree.Obstructs followLinks around outer name)
    (enters : tree.Enters followLinks around.path name) :
    ∃ location,
      tree.Reaches followLinks start ⟨around.path.entry name, location⟩
        (around :: outer) := by
  rcases enters with node | ⟨follows, ⟨target, node⟩, leadsOn⟩
  · exact ⟨_, .entry name reached node⟩
  · obtain ⟨location, found⟩ := isDirectory_iff.1 leadsOn
    refine ⟨location, .link name follows reached node found ?_⟩
    intro ancestor member same
    exact
      unobstructed
        ⟨follows, ⟨target, node⟩,
          Or.inr ⟨location, found, ancestor, member, same⟩⟩

/-- What names discover from a directory that is reached, they discover from the
start. -/
theorem Reaches.exists_discovers
    (reached : tree.Reaches followLinks start around outer) :
    ∀ {depth : Nat} {rest : List EntryName},
      tree.Discovers followLinks depth around.path rest →
        ∃ names,
          tree.Discovers followLinks (outer.length + depth) start names ∧
            start.below names = around.path.below rest := by
  induction reached with
  | start _ =>
      intro depth rest discovers
      rw [List.length_nil, Nat.zero_add]
      exact ⟨rest, discovers, rfl⟩
  | entry name _ node inductionHypothesis =>
      intro depth rest discovers
      obtain ⟨names, whole, spelled⟩ :=
        inductionHypothesis
          (discovers_cons_iff.2 (Or.inr ⟨Or.inl node, discovers⟩))
      rw [List.length_cons, Nat.add_right_comm, Nat.add_assoc]
      exact ⟨names, whole, spelled⟩
  | @link _ _ target location name follows _ node found _
      inductionHypothesis =>
      intro depth rest discovers
      have enters := isDirectory_iff.2 ⟨location, found⟩
      obtain ⟨names, whole, spelled⟩ :=
        inductionHypothesis
          (discovers_cons_iff.2
            (Or.inr ⟨Or.inr ⟨follows, ⟨target, node⟩, enters⟩, discovers⟩))
      rw [List.length_cons, Nat.add_right_comm, Nat.add_assoc]
      exact ⟨names, whole, spelled⟩

/-- What names discover from a directory that is reached stands in a directory
that is reached. -/
theorem Reaches.exists_of_discovers
    (unobstructed :
      ∀ around outer,
        tree.Reaches followLinks start around outer →
          outer.length < maxDepth →
            ∀ name, ¬ tree.Obstructs followLinks around outer name)
    (names : List EntryName) :
    ∀ {depth : Nat} {around : Ancestor} {outer : List Ancestor},
      tree.Reaches followLinks start around outer →
        outer.length + depth = maxDepth →
          tree.Discovers followLinks depth around.path names →
            ∃ inner others name,
              tree.Reaches followLinks start inner others ∧
                others.length < maxDepth ∧
                  tree.isFile (inner.path.entry name) = true ∧
                    around.path.below names = inner.path.entry name := by
  induction names with
  | nil =>
      intro depth around outer _ _ discovers
      exact (discovers.notEmpty rfl).elim
  | cons name rest inductionHypothesis =>
      intro depth around outer reached sum discovers
      cases depth with
      | zero => exact (not_discovers_zero discovers).elim
      | succ depth =>
          have shallow : outer.length < maxDepth := by
            omega
          rcases discovers_cons_iff.1 discovers with
            ⟨rfl, file⟩ | ⟨enters, discoversRest⟩
          · exact ⟨around, outer, name, reached, shallow, file, rfl⟩
          · obtain ⟨location, deeper⟩ :=
              reached.exists_of_enters
                (unobstructed around outer reached shallow name) enters
            refine inductionHypothesis deeper ?_ discoversRest
            rw [List.length_cons]
            omega

/-- A walk finds the files that stand in the directories that it lists. -/
theorem mem_walk_iff_reaches
    {files : List Path} (there : tree.isDirectory start = true)
    (walked : tree.walk followLinks maxDepth start = .ok files) :
    path ∈ files ↔
      ∃ around outer name,
        tree.Reaches followLinks start around outer ∧
          outer.length < maxDepth ∧
            tree.isFile (around.path.entry name) = true ∧
              path = around.path.entry name := by
  rw [mem_walk_iff walked path]
  constructor
  · intro discovered
    obtain ⟨names, discovers, rfl⟩ := discovered
    obtain ⟨here, found⟩ := isDirectory_iff.1 there
    apply Reaches.exists_of_discovers _ names (.start found)
      (Nat.zero_add maxDepth) discovers
    intro around outer reached shallow
    exact ((exists_walk_iff there).1 ⟨_, walked⟩ around outer reached shallow).2
  · intro stands
    obtain ⟨around, outer, name, reached, shallow, file, rfl⟩ := stands
    obtain ⟨depth, rfl⟩ := Nat.exists_eq_add_of_lt shallow
    obtain ⟨names, discovers, spelled⟩ :=
      reached.exists_discovers
        (discovers_cons_iff.2 (Or.inl ⟨rfl, file⟩) :
          tree.Discovers followLinks (depth + 1) around.path [name])
    exact ⟨names, discovers, spelled.symm⟩

/-! ## Two spellings -/

namespace LeadTogether

theorem symm
    (together : tree.LeadTogether first second) :
    tree.LeadTogether second first := by
  obtain ⟨home, firstFound, secondFound⟩ := together
  exact ⟨home, secondFound, firstFound⟩

theorem find_join
    {found : Location × Node} (together : tree.LeadTogether first second)
    (relative : path.isAbsolute = false)
    (limits : tree.WithinLimits (second.join path))
    (firstFound : tree.find (first.join path) = .ok found) :
    tree.find (second.join path) = .ok found := by
  obtain ⟨_, firstHome, secondHome⟩ := together
  exact
    find_join_of_find_join (find_eq_ok_iff.1 firstHome).1
      (find_eq_ok_iff.1 secondHome).1 relative limits firstFound

theorem isDirectory_join
    (together : tree.LeadTogether first second)
    (relative : path.isAbsolute = false)
    (limits : tree.WithinLimits (second.join path))
    (there : tree.isDirectory (first.join path) = true) :
    tree.isDirectory (second.join path) = true := by
  obtain ⟨location, found⟩ := isDirectory_iff.1 there
  exact
    isDirectory_iff.2 ⟨location, together.find_join relative limits found⟩

theorem isFile_join
    (together : tree.LeadTogether first second)
    (relative : path.isAbsolute = false)
    (limits : tree.WithinLimits (second.join path))
    (there : tree.isFile (first.join path) = true) :
    tree.isFile (second.join path) = true := by
  obtain ⟨location, content, found⟩ := isFile_iff.1 there
  exact
    isFile_iff.2
      ⟨location, content, together.find_join relative limits found⟩

end LeadTogether

theorem WalkLooksUp.of_reaches
    (reached : tree.Reaches followLinks start around outer)
    (shallow : outer.length ≤ maxDepth) :
    tree.WalkLooksUp followLinks maxDepth start around.path := by
  cases reached with
  | start _ => exact .start
  | entry _ reached node => exact .entry reached shallow node
  | link _ _ reached node _ _ => exact .entry reached shallow node

theorem Reaches.node?_of_entryNode?
    {node : Node} (reached : tree.Reaches followLinks start around outer)
    (present : tree.entryNode? around.path name = some node) :
    tree.node? (name :: around.location) = some node := by
  cases located : tree.locate around.path with
  | error cause => simp [entryNode?, located] at present
  | ok here =>
      rwa [entryNode?_of_locate located, ← reached.location_eq located]
        at present

/-- The lookups of a walk stay within the limits of the operating system. -/
def WalkWithinLimits
    (tree : FileTree) (followLinks : Bool) (maxDepth : Nat) (start : Path) :
    Prop :=
  ∀ path, tree.WalkLooksUp followLinks maxDepth start path →
    tree.WithinLimits path

/-- A walk of one level looks up nothing but its start and what that lists. -/
theorem walkWithinLimits_one
    {here : Location} (located : tree.locate start = .ok here)
    (listed :
      ∀ name ∈ tree.listing here, tree.WithinLimits (start.entry name)) :
    tree.WalkWithinLimits followLinks 1 start := by
  intro path looked
  cases looked with
  | start => exact .of_locate located
  | @entry around outer name node reached shallow present =>
      obtain rfl : outer = [] :=
        List.length_eq_zero_iff.1 (Nat.lt_one_iff.1 shallow)
      cases reached with
      | start _ =>
          apply listed
          rw [mem_listing_iff, ← entryNode?_of_locate located, present]
          rfl

/-- Below two roots walks are inside of the same directories, and the paths of
the innermost ones differ in the root only. -/
structure Corresponds
    (first second : Path) (around otherAround : Ancestor)
    (outer otherOuter : List Ancestor) : Prop where
  spelled :
    ∃ inner : Path,
      inner.isAbsolute = false ∧
        around.path = first.join inner ∧ otherAround.path = second.join inner
  sameLocation : around.location = otherAround.location
  sameOuter :
    outer.map Ancestor.location = otherOuter.map Ancestor.location

namespace Corresponds

variable {otherAround : Ancestor} {otherOuter : List Ancestor}

theorem symm
    (same : Corresponds first second around otherAround outer otherOuter) :
    Corresponds second first otherAround around otherOuter outer where
  spelled := by
    obtain ⟨inner, relative, spelled, otherSpelled⟩ := same.spelled
    exact ⟨inner, relative, otherSpelled, spelled⟩
  sameLocation := same.sameLocation.symm
  sameOuter := same.sameOuter.symm

theorem length_eq
    (same : Corresponds first second around otherAround outer otherOuter) :
    outer.length = otherOuter.length := by
  have lengths := congrArg List.length same.sameOuter
  rwa [List.length_map, List.length_map] at lengths

theorem exists_ancestor
    (same : Corresponds first second around otherAround outer otherOuter)
    {location : Location}
    (inside : ∃ ancestor ∈ around :: outer, ancestor.location = location) :
    ∃ ancestor ∈ otherAround :: otherOuter,
      ancestor.location = location := by
  rw [← List.mem_map, List.map_cons] at inside ⊢
  rwa [← same.sameLocation, ← same.sameOuter]

theorem spelled_entry
    (same : Corresponds first second around otherAround outer otherOuter)
    (name : EntryName) :
    ∃ inner : Path,
      inner.isAbsolute = false ∧
        around.path.entry name = first.join inner ∧
          otherAround.path.entry name = second.join inner := by
  obtain ⟨inner, relative, spelled, otherSpelled⟩ := same.spelled
  refine ⟨inner.entry name, ?_, ?_, ?_⟩
  · rw [Path.isAbsolute_entry, relative]
  · rw [spelled]
    exact Path.join_join relative name.isAbsolute_eq_false
  · rw [otherSpelled]
    exact Path.join_join relative name.isAbsolute_eq_false

theorem entry
    (same : Corresponds first second around otherAround outer otherOuter)
    (name : EntryName) (location : Location) :
    Corresponds first second ⟨around.path.entry name, location⟩
      ⟨otherAround.path.entry name, location⟩ (around :: outer)
      (otherAround :: otherOuter) where
  spelled := same.spelled_entry name
  sameLocation := rfl
  sameOuter := by
    rw [List.map_cons, List.map_cons, same.sameLocation, same.sameOuter]

theorem find_entry
    (same : Corresponds first second around otherAround outer otherOuter)
    (together : tree.LeadTogether first second)
    {found : Location × Node}
    (limits : tree.WithinLimits (otherAround.path.entry name))
    (entryFound : tree.find (around.path.entry name) = .ok found) :
    tree.find (otherAround.path.entry name) = .ok found := by
  obtain ⟨inner, relative, spelled, otherSpelled⟩ := same.spelled_entry name
  rw [spelled] at entryFound
  rw [otherSpelled] at limits ⊢
  exact together.find_join relative limits entryFound

end Corresponds

section Rerooted

variable
  (together : tree.LeadTogether first second)
  (relative : directory.isAbsolute = false)
  (limits :
    tree.WalkWithinLimits followLinks maxDepth (second.join directory))

include limits in
theorem Reaches.locate_eq_of_limits
    (reached : tree.Reaches followLinks (second.join directory) around outer)
    (shallow : outer.length ≤ maxDepth) :
    tree.locate around.path = .ok around.location :=
  reached.locate_eq (limits _ (.of_reaches reached shallow)).short

include limits in
/-- An entry of a directory that is reached below the one root is an entry
below the other one. -/
theorem Corresponds.entryNode?_eq
    {otherAround : Ancestor} {otherOuter : List Ancestor} {node : Node}
    (same : Corresponds first second around otherAround outer otherOuter)
    (reached : tree.Reaches followLinks start around outer)
    (otherReached :
      tree.Reaches followLinks (second.join directory) otherAround
        otherOuter)
    (shallow : outer.length ≤ maxDepth)
    (present : tree.entryNode? around.path name = some node) :
    tree.entryNode? otherAround.path name = some node := by
  rw [same.length_eq] at shallow
  rw [entryNode?_of_locate
    (otherReached.locate_eq_of_limits limits shallow), ← same.sameLocation]
  exact reached.node?_of_entryNode? present

include together relative limits in
/-- What a walk reaches below the one root, a walk reaches below the other
one. -/
theorem Reaches.exists_corresponding
    (reached : tree.Reaches followLinks (first.join directory) around outer) :
    outer.length ≤ maxDepth →
      ∃ otherAround otherOuter,
        tree.Reaches followLinks (second.join directory) otherAround
            otherOuter ∧
          Corresponds first second around otherAround outer otherOuter := by
  induction reached with
  | @start here found =>
      intro _
      have otherFound :=
        together.find_join relative (limits _ .start) found
      exact
        ⟨_, [], .start otherFound, ⟨directory, relative, rfl, rfl⟩, rfl, rfl⟩
  | @entry around outer name reached node inductionHypothesis =>
      intro shallow
      obtain ⟨otherAround, otherOuter, otherReached, same⟩ :=
        inductionHypothesis (Nat.le_of_succ_le shallow)
      have otherNode :=
        same.entryNode?_eq limits reached otherReached
          (Nat.le_of_succ_le shallow) node
      rw [same.sameLocation]
      exact ⟨_, _, .entry name otherReached otherNode, same.entry name _⟩
  | @link around outer target location name follows reached node found fresh
      inductionHypothesis =>
      intro shallow
      obtain ⟨otherAround, otherOuter, otherReached, same⟩ :=
        inductionHypothesis (Nat.le_of_succ_le shallow)
      have otherNode :=
        same.entryNode?_eq limits reached otherReached
          (Nat.le_of_succ_le shallow) node
      have otherShallow : otherOuter.length < maxDepth := by
        rw [← same.length_eq]
        exact shallow
      have otherFound :=
        same.find_entry together
          (limits _ (.entry otherReached otherShallow otherNode)) found
      refine
        ⟨_, _, .link name follows otherReached otherNode otherFound ?_,
          same.entry name _⟩
      intro ancestor member sameLocation
      obtain ⟨inner, innerMember, innerSame⟩ :=
        same.symm.exists_ancestor ⟨ancestor, member, sameLocation⟩
      exact fresh inner innerMember innerSame

variable
  (firstLimits :
    tree.WalkWithinLimits followLinks maxDepth (first.join directory))

include together limits firstLimits in
/-- A link that obstructs the walk below the one root obstructs the one below
the other. -/
theorem Corresponds.obstructs
    {otherAround : Ancestor} {otherOuter : List Ancestor}
    (same : Corresponds first second around otherAround outer otherOuter)
    (reached : tree.Reaches followLinks (first.join directory) around outer)
    (otherReached :
      tree.Reaches followLinks (second.join directory) otherAround
        otherOuter)
    (shallow : outer.length < maxDepth)
    (obstructs : tree.Obstructs followLinks around outer name) :
    tree.Obstructs followLinks otherAround otherOuter name := by
  obtain ⟨follows, ⟨target, node⟩, either⟩ := obstructs
  have otherNode :=
    same.entryNode?_eq limits reached otherReached (Nat.le_of_lt shallow) node
  have otherShallow : otherOuter.length < maxDepth := by
    rw [← same.length_eq]
    exact shallow
  have entryLimits := firstLimits _ (.entry reached shallow node)
  have otherLimits := limits _ (.entry otherReached otherShallow otherNode)
  refine ⟨follows, ⟨target, otherNode⟩, ?_⟩
  rcases either with nowhere | ⟨location, found, around⟩
  · left
    intro found otherFound
    exact
      nowhere found
        (same.symm.find_entry together.symm entryLimits otherFound)
  · exact
      Or.inr
        ⟨location, same.find_entry together otherLimits found,
          same.exists_ancestor around⟩

include together relative limits firstLimits in
/-- A walk succeeds below the one root if it does below the other. -/
theorem exists_walk_of_together
    (there : tree.isDirectory (first.join directory) = true)
    (walks :
      ∃ files,
        tree.walk followLinks maxDepth (first.join directory) = .ok files) :
    ∃ files,
      tree.walk followLinks maxDepth (second.join directory) =
        .ok files := by
  have otherThere :=
    together.isDirectory_join relative (limits _ .start) there
  rw [exists_walk_iff there] at walks
  rw [exists_walk_iff otherThere]
  intro around outer reached shallow
  obtain ⟨firstAround, firstOuter, firstReached, same⟩ :=
    reached.exists_corresponding together.symm relative firstLimits
      (Nat.le_of_lt shallow)
  have firstShallow : firstOuter.length < maxDepth := by
    rw [← same.length_eq]
    exact shallow
  obtain ⟨⟨_, firstOpened⟩, unobstructed⟩ :=
    walks firstAround firstOuter firstReached firstShallow
  have located :=
    reached.locate_eq_of_limits limits (Nat.le_of_lt shallow)
  have permitted := firstReached.permitted_of_openDirectory firstOpened
  rw [← same.sameLocation] at permitted
  refine ⟨⟨_, openDirectory_eq_ok_iff.2 ⟨located, permitted⟩⟩, ?_⟩
  intro name obstructs
  exact
    unobstructed name
      (same.obstructs together.symm firstLimits limits reached firstReached
        shallow obstructs)

include together relative limits firstLimits in
/-- What a walk finds below the one root, a walk finds below the other one, by
the same path from the root. -/
theorem mem_walk_of_together
    {files otherFiles : List Path}
    (there : tree.isDirectory (first.join directory) = true)
    (walked :
      tree.walk followLinks maxDepth (first.join directory) = .ok files)
    (otherWalked :
      tree.walk followLinks maxDepth (second.join directory) =
        .ok otherFiles)
    (member : path ∈ files) :
    ∃ inner : Path,
      inner.isAbsolute = false ∧ path = first.join inner ∧
        second.join inner ∈ otherFiles := by
  obtain ⟨around, outer, name, reached, shallow, file, rfl⟩ :=
    (mem_walk_iff_reaches there walked).1 member
  obtain ⟨otherAround, otherOuter, otherReached, same⟩ :=
    reached.exists_corresponding together relative limits
      (Nat.le_of_lt shallow)
  have otherShallow : otherOuter.length < maxDepth := by
    rw [← same.length_eq]
    exact shallow
  obtain ⟨location, content, found⟩ := isFile_iff.1 file
  have located :=
    reached.locate_eq_of_limits firstLimits (Nat.le_of_lt shallow)
  obtain ⟨node, present⟩ :=
    Option.isSome_iff_exists.1 (isSome_node?_of_find_entry located found)
  rw [← entryNode?_of_locate located] at present
  have otherNode :=
    same.entryNode?_eq limits reached otherReached (Nat.le_of_lt shallow)
      present
  have otherFound :=
    same.find_entry together
      (limits _ (.entry otherReached otherShallow otherNode)) found
  obtain ⟨inner, innerRelative, spelled, otherSpelled⟩ :=
    same.spelled_entry name
  refine ⟨inner, innerRelative, spelled, ?_⟩
  rw [← otherSpelled]
  exact
    (mem_walk_iff_reaches
      (together.isDirectory_join relative (limits _ .start) there)
      otherWalked).2
      ⟨otherAround, otherOuter, name, otherReached, otherShallow,
        isFile_iff.2 ⟨location, content, otherFound⟩, rfl⟩

end Rerooted

end HeaderAudit.FileTree
