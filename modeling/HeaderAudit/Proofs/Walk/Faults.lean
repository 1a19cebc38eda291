import HeaderAudit.Proofs.FileTree.Limits
import HeaderAudit.Proofs.Walk.Ends

/-! `Reaches` says, without a walk, which directories a walk comes to be inside
of. It succeeds exactly when each of them above its limit of depth can be
listed and none holds a link that obstructs it. -/

namespace HeaderAudit.FileTree

/-- A walk comes to be inside of a directory and of the ones around it, from
the inside out. -/
inductive Reaches (tree : FileTree) (followLinks : Bool) (start : Path) :
    Ancestor → List Ancestor → Prop
  | start {here : Location} :
      tree.find start = .ok (here, .directory) →
      Reaches tree followLinks start ⟨start, here⟩ []
  | entry {around : Ancestor} {outer : List Ancestor} (name : EntryName) :
      Reaches tree followLinks start around outer →
      tree.entryNode? around.path name = some .directory →
      Reaches tree followLinks start
        ⟨around.path.entry name, name :: around.location⟩ (around :: outer)
  | link {around : Ancestor} {outer : List Ancestor} {target : Path}
      {location : Location} (name : EntryName) :
      followLinks = true →
      Reaches tree followLinks start around outer →
      tree.entryNode? around.path name = some (.link target) →
      tree.find (around.path.entry name) = .ok (location, .directory) →
      (∀ ancestor ∈ around :: outer, ancestor.location ≠ location) →
      Reaches tree followLinks start ⟨around.path.entry name, location⟩
        (around :: outer)

/-- A link that is to be followed leads nowhere, or to a directory that the
walk is inside of. -/
def Obstructs
    (tree : FileTree) (followLinks : Bool) (around : Ancestor)
    (outer : List Ancestor) (name : EntryName) : Prop :=
  followLinks = true ∧
    (∃ target, tree.entryNode? around.path name = some (.link target)) ∧
      ((∀ found, tree.find (around.path.entry name) ≠ .ok found) ∨
        ∃ location,
          tree.find (around.path.entry name) = .ok (location, .directory) ∧
            ∃ ancestor ∈ around :: outer, ancestor.location = location)

variable
  {tree : FileTree} {followLinks : Bool} {start : Path} {maxDepth : Nat}
  {around entered : Ancestor} {outer : List Ancestor} {name : EntryName}

/-! ## Reached directories -/

theorem Reaches.exists_inside
    (reached : tree.Reaches followLinks start around outer) :
    ∃ targets, tree.Inside followLinks start around outer targets := by
  induction reached with
  | start found => exact ⟨[], .start found⟩
  | @entry around outer name _ node inductionHypothesis =>
      obtain ⟨targets, inside⟩ := inductionHypothesis
      cases located : tree.locate around.path with
      | error cause => simp [entryNode?, located] at node
      | ok here =>
          rw [inside.location_eq located]
          exact
            ⟨targets,
              inside.entry name node
                ((Descends.of_directory_iff located node).2 rfl)⟩
  | @link around outer target location name follows _ node found fresh
      inductionHypothesis =>
      obtain ⟨targets, inside⟩ := inductionHypothesis
      cases located : tree.locate around.path with
      | error cause => simp [entryNode?, located] at node
      | ok here =>
          refine ⟨_, inside.link name node ⟨here, located, ?_⟩⟩
          rw [entryNode?_of_locate located] at node
          have apart :
              (around :: outer).find? (·.location = location) = none :=
            List.find?_eq_none.2 fun ancestor member => by
              simpa using fresh ancestor member
          simp only [descent, node, follows, if_true, found, apart]

theorem reaches_of_inside
    {targets : List Location}
    (inside : tree.Inside followLinks start around outer targets) :
    tree.Reaches followLinks start around outer := by
  induction inside with
  | start found => exact .start found
  | entry name inside node descends inductionHypothesis =>
      obtain ⟨here, located, _⟩ := id descends
      rw [(Descends.of_directory_iff located node).1 descends,
        ← inside.location_eq located]
      exact .entry name inductionHypothesis node
  | @link around entered outer targets target name inside node descends
      inductionHypothesis =>
      obtain ⟨found, samePath, fresh⟩ := descends.of_link node
      have follows : followLinks = true := by
        obtain ⟨here, located, descended⟩ := descends
        rw [entryNode?_of_locate located] at node
        cases followLinks with
        | false => simp [descent, node] at descended
        | true => rfl
      obtain ⟨path, location⟩ := entered
      cases samePath
      exact
        .link name follows inductionHypothesis node found
          fun ancestor member => fresh ancestor member

namespace Reaches

theorem descends
    (reached : tree.Reaches followLinks start around outer)
    (descends :
      tree.Descends followLinks (around :: outer) around.path name entered) :
    tree.Reaches followLinks start entered (around :: outer) := by
  obtain ⟨_, inside⟩ := reached.exists_inside
  obtain ⟨_, deeper⟩ := inside.exists_of_descends descends
  exact reaches_of_inside deeper

theorem location_eq
    (reached : tree.Reaches followLinks start around outer)
    {here : Location} (located : tree.locate around.path = .ok here) :
    around.location = here := by
  obtain ⟨_, inside⟩ := reached.exists_inside
  exact inside.location_eq located

theorem permitted_of_openDirectory
    (reached : tree.Reaches followLinks start around outer)
    {here : Location} (opened : tree.openDirectory around.path = .ok here) :
    around.location ∉ tree.unreadable := by
  obtain ⟨located, permitted⟩ := openDirectory_eq_ok_iff.1 opened
  rwa [← reached.location_eq located] at permitted

theorem node?_location
    (reached : tree.Reaches followLinks start around outer) :
    tree.node? around.location = some .directory := by
  obtain ⟨_, inside⟩ := reached.exists_inside
  exact inside.node?_location

/-- A directory that is reached is found by its path, unless that is too
long. -/
theorem locate_eq
    (reached : tree.Reaches followLinks start around outer)
    (short : around.path.bytes.length ≤ longestPath) :
    tree.locate around.path = .ok around.location := by
  cases reached with
  | start found => exact (find_eq_ok_iff.1 found).1
  | @entry around outer name reached node =>
      cases located : tree.locate around.path with
      | error cause => simp [entryNode?, located] at node
      | ok here =>
          have home := reached.node?_location
          rw [entryNode?_of_locate located] at node
          rw [reached.location_eq located] at home ⊢
          exact locate_entry located home node (by simp) short
  | link _ _ _ _ found _ => exact (find_eq_ok_iff.1 found).1

/-- With every level the path of a directory that is reached grows by a name
and a slash at most. -/
theorem length_path_le
    (reached : tree.Reaches followLinks start around outer) :
    around.path.bytes.length ≤
      start.bytes.length + outer.length * (longestName + 1) := by
  have deeper
      {around : Ancestor} {outer : List Ancestor} {name : EntryName}
      (before :
        around.path.bytes.length ≤
          start.bytes.length + outer.length * (longestName + 1)) :
      (around.path.entry name).bytes.length ≤
        start.bytes.length +
          (around :: outer).length * (longestName + 1) := by
    have longer := around.path.length_entry_le name
    rw [List.length_cons, Nat.succ_mul]
    omega
  induction reached with
  | start _ => exact Nat.le_add_right _ _
  | entry _ _ _ inductionHypothesis => exact deeper inductionHypothesis
  | link _ _ _ _ _ _ inductionHypothesis => exact deeper inductionHypothesis

theorem mono
    {more : Bool} (wider : followLinks = true → more = true)
    (reached : tree.Reaches followLinks start around outer) :
    tree.Reaches more start around outer := by
  induction reached with
  | start found => exact .start found
  | entry name _ node inductionHypothesis =>
      exact .entry name inductionHypothesis node
  | link name follows _ node found fresh inductionHypothesis =>
      exact .link name (wider follows) inductionHypothesis node found fresh

end Reaches

/-! ## One step of a walk -/

theorem exists_descent_eq_error_iff
    {here : Location} (located : tree.locate around.path = .ok here) :
    (∃ fault,
        tree.descent followLinks (around :: outer) (around.path.entry name)
          (name :: here) = .error fault) ↔
      tree.Obstructs followLinks around outer name := by
  unfold Obstructs
  rw [entryNode?_of_locate located]
  unfold descent
  cases node : tree.node? (name :: here) with
  | none => simp
  | some present =>
      cases present with
      | directory => simp
      | file content => simp
      | socket => simp
      | link target =>
          cases followLinks with
          | false => simp
          | true =>
              cases found : tree.find (around.path.entry name) with
              | error cause => simp
              | ok reached =>
                  obtain ⟨location, there⟩ := reached
                  cases there with
                  | file content => simp
                  | socket => simp
                  | link target => simp
                  | directory =>
                      have loops :
                          ((around :: outer).find?
                              (·.location = location)).isSome = true ↔
                            ∃ ancestor ∈ around :: outer,
                              ancestor.location = location := by
                        simp only [List.find?_isSome, decide_eq_true_eq]
                      simp only [if_true, Except.ok.injEq, Prod.mk.injEq,
                        and_true, exists_eq_left', ← loops]
                      cases (around :: outer).find? (·.location = location)
                        <;> simp

theorem isSome_node?_of_descent
    {ancestors : List Ancestor} {path : Path} {location : Location}
    (descended :
      tree.descent followLinks ancestors path location =
        .ok (some entered)) :
    (tree.node? location).isSome = true := by
  unfold descent at descended
  cases node : tree.node? location with
  | none => simp [node] at descended
  | some present => rfl

theorem exists_entryFiles_iff
    {ancestors : List Ancestor}
    {below : Ancestor → Except WalkError (List Path)}
    {directory : Path} {here : Location} :
    (∃ files,
        tree.entryFiles followLinks ancestors below directory here name =
          .ok files) ↔
      (∃ descended,
          tree.descent followLinks ancestors (directory.entry name)
            (name :: here) = .ok descended) ∧
        ∀ entered,
          tree.descent followLinks ancestors (directory.entry name)
              (name :: here) = .ok (some entered) →
            ∃ inner, below entered = .ok inner := by
  have entryPath : directory.join ⟨name.bytes⟩ = directory.entry name := rfl
  simp only [entryFiles, entryPath]
  cases tree.descent followLinks ancestors (directory.entry name)
      (name :: here) with
  | error fault => simp
  | ok descended =>
      cases descended with
      | none => simp
      | some entered =>
          cases ran : below entered with
          | error fault => simp [ran]
          | ok inner => simp [ran]

theorem filesBelow_succ_of_openDirectory
    {here : Location} (opened : tree.openDirectory around.path = .ok here)
    (depth : Nat) :
    tree.filesBelow followLinks (depth + 1) around outer =
      List.flatten <$>
        (tree.listing here).mapM
          (tree.entryFiles followLinks (around :: outer)
            (fun entered =>
              tree.filesBelow followLinks depth entered (around :: outer))
            around.path here) := by
  rw [filesBelow, opened]

theorem filesBelow_succ_of_lost
    {cause : LookupError}
    (lost : tree.openDirectory around.path = .error cause)
    (depth : Nat) :
    tree.filesBelow followLinks (depth + 1) around outer =
      .error (.unreachable around.path cause) := by
  rw [filesBelow, lost]

/-- A walk goes one level deeper when the directory can be listed, no link in
it obstructs the walk, and the walk succeeds in all that it enters. -/
theorem exists_filesBelow_succ_iff {depth : Nat} :
    (∃ files,
        tree.filesBelow followLinks (depth + 1) around outer = .ok files) ↔
      (∃ here, tree.openDirectory around.path = .ok here) ∧
        (∀ name, ¬ tree.Obstructs followLinks around outer name) ∧
          ∀ name entered,
            tree.Descends followLinks (around :: outer) around.path name
                entered →
              ∃ inner,
                tree.filesBelow followLinks depth entered
                  (around :: outer) = .ok inner := by
  cases opened : tree.openDirectory around.path with
  | error cause => simp [filesBelow_succ_of_lost opened]
  | ok here =>
      have located := (openDirectory_eq_ok_iff.1 opened).1
      rw [filesBelow_succ_of_openDirectory opened]
      constructor
      · intro walked
        obtain ⟨files, walked⟩ := walked
        obtain ⟨parts, ran, _⟩ := map_eq_ok_iff.1 walked
        have succeeds (name : EntryName)
            (present : (tree.node? (name :: here)).isSome = true) :=
          exists_entryFiles_iff.1 <|
            (exists_ok_of_mapM_eq_ok ran name
              (mem_listing_iff.2 present)).imp fun _ => And.right
        refine ⟨⟨here, rfl⟩, ?_, ?_⟩
        · intro name obstructs
          obtain ⟨_, ⟨target, node⟩, _⟩ := id obstructs
          rw [entryNode?_of_locate located] at node
          obtain ⟨⟨descended, passed⟩, _⟩ := succeeds name (by simp [node])
          obtain ⟨fault, failed⟩ :=
            (exists_descent_eq_error_iff located).2 obstructs
          rw [passed] at failed
          cases failed
        · intro name entered descends
          obtain ⟨again, locatedAgain, descended⟩ := descends
          rw [located] at locatedAgain
          cases locatedAgain
          exact
            (succeeds name (isSome_node?_of_descent descended)).2 entered
              descended
      · intro parts
        obtain ⟨_, unobstructed, enters⟩ := parts
        obtain ⟨found, ran⟩ :
            ∃ found,
              (tree.listing here).mapM
                  (tree.entryFiles followLinks (around :: outer)
                    (fun entered =>
                      tree.filesBelow followLinks depth entered
                        (around :: outer))
                    around.path here) =
                .ok found := by
          apply exists_mapM_eq_ok
          intro name _
          refine exists_entryFiles_iff.2 ⟨?_, ?_⟩
          · cases descended :
                tree.descent followLinks (around :: outer)
                  (around.path.entry name) (name :: here) with
            | ok next => exact ⟨next, rfl⟩
            | error fault =>
                exact
                  (unobstructed name
                    ((exists_descent_eq_error_iff located).1
                      ⟨fault, descended⟩)).elim
          · intro entered descended
            exact enters name entered ⟨here, located, descended⟩
        exact ⟨_, map_eq_ok_iff.2 ⟨found, ran, rfl⟩⟩

/-! ## Whole walks -/

theorem walk_eq_filesBelow
    {here : Location} (located : tree.locate start = .ok here) :
    tree.walk followLinks maxDepth start =
      tree.filesBelow followLinks maxDepth ⟨start, here⟩ [] := by
  simp only [walk, located]

theorem exists_filesBelow_of_descends
    {depth : Nat} {files : List Path}
    (walked :
      tree.filesBelow followLinks (depth + 1) around outer = .ok files)
    (descends :
      tree.Descends followLinks (around :: outer) around.path name entered) :
    ∃ inner,
      tree.filesBelow followLinks depth entered (around :: outer) =
        .ok inner :=
  (exists_filesBelow_succ_iff.1 ⟨files, walked⟩).2.2 name entered descends

/-- A walk that succeeds has succeeded from every directory that it reaches. -/
theorem Reaches.exists_filesBelow
    (reached : tree.Reaches followLinks start around outer) :
    ∀ {depth : Nat} {files : List Path},
      tree.walk followLinks (outer.length + depth) start = .ok files →
        ∃ inner,
          tree.filesBelow followLinks depth around outer = .ok inner := by
  obtain ⟨targets, inside⟩ := reached.exists_inside
  clear reached
  induction inside with
  | start found =>
      intro depth files walked
      rw [List.length_nil, Nat.zero_add,
        walk_eq_filesBelow (find_eq_ok_iff.1 found).1] at walked
      exact ⟨files, walked⟩
  | entry name _ _ descends inductionHypothesis =>
      intro depth files walked
      rw [List.length_cons, Nat.add_right_comm, Nat.add_assoc] at walked
      obtain ⟨_, above⟩ := inductionHypothesis walked
      exact exists_filesBelow_of_descends above descends
  | link name _ _ descends inductionHypothesis =>
      intro depth files walked
      rw [List.length_cons, Nat.add_right_comm, Nat.add_assoc] at walked
      obtain ⟨_, above⟩ := inductionHypothesis walked
      exact exists_filesBelow_of_descends above descends

theorem exists_filesBelow_of_unobstructed (depth : Nat) :
    ∀ {around : Ancestor} {outer : List Ancestor},
      tree.Reaches followLinks start around outer →
        (∀ directory others,
          tree.Reaches followLinks start directory others →
            others.length < outer.length + depth →
              (∃ here, tree.openDirectory directory.path = .ok here) ∧
                ∀ name,
                  ¬ tree.Obstructs followLinks directory others name) →
        ∃ files,
          tree.filesBelow followLinks depth around outer = .ok files := by
  induction depth with
  | zero =>
      intro around outer _ _
      exact ⟨[], rfl⟩
  | succ depth inductionHypothesis =>
      intro around outer reached clear
      obtain ⟨listed, unobstructed⟩ := clear around outer reached (by omega)
      refine exists_filesBelow_succ_iff.2 ⟨listed, unobstructed, ?_⟩
      intro name entered descends
      apply inductionHypothesis (reached.descends descends)
      intro directory others otherReached shallow
      apply clear directory others otherReached
      rw [List.length_cons] at shallow
      omega

/-- A walk succeeds exactly when every directory that it reaches above its
limit of depth can be listed and holds no link that obstructs it. -/
theorem exists_walk_iff (there : tree.isDirectory start = true) :
    (∃ files, tree.walk followLinks maxDepth start = .ok files) ↔
      ∀ around outer,
        tree.Reaches followLinks start around outer →
          outer.length < maxDepth →
            (∃ here, tree.openDirectory around.path = .ok here) ∧
              ∀ name, ¬ tree.Obstructs followLinks around outer name := by
  constructor
  · intro succeeded around outer reached shallow
    obtain ⟨files, walked⟩ := succeeded
    obtain ⟨depth, rfl⟩ := Nat.exists_eq_add_of_lt shallow
    rw [Nat.add_assoc] at walked
    have inner := reached.exists_filesBelow walked
    obtain ⟨listed, unobstructed, _⟩ := exists_filesBelow_succ_iff.1 inner
    exact ⟨listed, unobstructed⟩
  · intro clear
    obtain ⟨here, found⟩ := isDirectory_iff.1 there
    rw [walk_eq_filesBelow (find_eq_ok_iff.1 found).1]
    apply exists_filesBelow_of_unobstructed maxDepth (.start found)
    intro around outer reached shallow
    apply clear around outer reached
    rwa [List.length_nil, Nat.zero_add] at shallow

/-- Where no path is too long, only a directory that is unreadable and a link
that obstructs a walk keep it from its end. -/
theorem exists_walk_iff_of_short
    (there : tree.isDirectory start = true)
    (short :
      ∀ around outer,
        tree.Reaches followLinks start around outer →
          outer.length < maxDepth →
            around.path.bytes.length ≤ longestPath) :
    (∃ files, tree.walk followLinks maxDepth start = .ok files) ↔
      (¬ ∃ around outer,
        tree.Reaches followLinks start around outer ∧
          outer.length < maxDepth ∧ around.location ∈ tree.unreadable) ∧
        ¬ ∃ around outer name,
          tree.Reaches followLinks start around outer ∧
            outer.length < maxDepth ∧
              tree.Obstructs followLinks around outer name := by
  rw [exists_walk_iff there]
  constructor
  · intro clear
    constructor
    · intro barred
      obtain ⟨around, outer, reached, shallow, refused⟩ := barred
      obtain ⟨here, opened⟩ := (clear around outer reached shallow).1
      exact reached.permitted_of_openDirectory opened refused
    · intro obstructed
      obtain ⟨around, outer, name, reached, shallow, obstructs⟩ := obstructed
      exact (clear around outer reached shallow).2 name obstructs
  · intro both around outer reached shallow
    obtain ⟨unbarred, unobstructed⟩ := both
    have located :=
      reached.locate_eq (short around outer reached shallow)
    have permitted : around.location ∉ tree.unreadable :=
      fun refused => unbarred ⟨around, outer, reached, shallow, refused⟩
    refine
      ⟨⟨_, openDirectory_eq_ok_iff.2 ⟨located, permitted⟩⟩, ?_⟩
    intro name obstructs
    exact unobstructed ⟨around, outer, name, reached, shallow, obstructs⟩

end HeaderAudit.FileTree
