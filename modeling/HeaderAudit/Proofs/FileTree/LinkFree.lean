import HeaderAudit.Proofs.FileTree.Entries

/-! In a tree without links a lookup ends where its steps say. -/

namespace HeaderAudit

/-- The node is a link. -/
def Node.isLink : Node → Bool
  | .link _ => true
  | _ => false

/-- Where a step goes that meets no link. -/
def Step.apply (location : Location) : Step → Location
  | .stay => location
  | .up => location.tail
  | .enter name => name :: location
  | .overlong => location

/-- Where a path leads, seen from a directory, when it meets no link. -/
def Path.destination (path : Path) (directory : Location) : Location :=
  (path.innerComponents.map Component.step).foldl Step.apply
    (FileTree.startOf path directory)

/-- The component that spells a name. -/
def EntryName.component (name : EntryName) : Component :=
  .name name.bytes

/-- The path that spells names with single slashes, the outermost name
first. -/
def Path.ofNames (names : List EntryName) : Path :=
  ⟨[slash].intercalate (names.map EntryName.bytes)⟩

theorem EntryName.isInner_component (name : EntryName) :
    name.component.IsInner :=
  ⟨name.notEmpty, name.notDots.1, name.notDots.2, name.noSlash⟩

theorem EntryName.bytes_of_ofBytes?
    {bytes : List UInt8} {name : EntryName}
    (read : EntryName.ofBytes? bytes = some name) :
    name.bytes = bytes := by
  unfold EntryName.ofBytes? at read
  split at read
  · cases read
    rfl
  · cases read

theorem EntryName.exists_of_step_ne_overlong
    {component : Component} (inner : component.IsInner)
    (notUp : component ≠ .up) (short : component.step ≠ .overlong) :
    ∃ name : EntryName, name.component = component := by
  cases component with
  | root => exact inner.elim
  | here => exact inner.elim
  | up => exact (notUp rfl).elim
  | name bytes =>
      obtain ⟨notEmpty, notDot, notDots, _⟩ := inner
      simp only [Component.step, Step.ofPiece, notEmpty, notDot, notDots,
        or_self, if_false] at short
      cases read : EntryName.ofBytes? bytes with
      | some name =>
          exact
            ⟨name, congrArg Component.name (EntryName.bytes_of_ofBytes? read)⟩
      | none =>
          rw [read] at short
          exact (short rfl).elim

theorem EntryName.exists_names
    {components : List Component}
    (inner : ∀ component ∈ components, component.IsInner)
    (noUp : .up ∉ components)
    (short : .overlong ∉ components.map Component.step) :
    ∃ names : List EntryName,
      components = names.map EntryName.component := by
  induction components with
  | nil => exact ⟨[], rfl⟩
  | cons head tail inductionHypothesis =>
      obtain ⟨headInner, tailInner⟩ := List.forall_mem_cons.1 inner
      rw [List.mem_cons, not_or] at noUp
      rw [List.map_cons, List.mem_cons, not_or] at short
      obtain ⟨name, rfl⟩ :=
        exists_of_step_ne_overlong headInner (Ne.symm noUp.1)
          (Ne.symm short.1)
      obtain ⟨names, rfl⟩ := inductionHypothesis tailInner noUp.2 short.2
      exact ⟨name :: names, rfl⟩

namespace Path

theorem ofNames_eq (names : List EntryName) :
    ofNames names = ofComponents (names.map EntryName.component) := by
  have inner :
      ∀ component ∈ names.map EntryName.component, component.IsInner := by
    intro component member
    obtain ⟨name, _, rfl⟩ := List.mem_map.1 member
    exact name.isInner_component
  have spelled := bytes_ofComponents_of_inner inner
  rw [List.map_map] at spelled
  exact congrArg Path.mk spelled.symm

theorem moves_ofNames (names : List EntryName) :
    (ofNames names).moves = names.map EntryName.component := by
  rw [ofNames_eq]
  apply moves_ofComponents
  left
  intro component member
  obtain ⟨name, _, rfl⟩ := List.mem_map.1 member
  exact name.isInner_component

theorem isAbsolute_ofNames (names : List EntryName) :
    (ofNames names).isAbsolute = false := by
  rw [← Bool.not_eq_true, ← root_mem_moves_iff, moves_ofNames]
  intro member
  obtain ⟨name, _, impossible⟩ := List.mem_map.1 member
  cases impossible

theorem moves_below (names : List EntryName) :
    ∀ directory : Path,
      (directory.below names).moves =
        directory.moves ++ names.map EntryName.component := by
  induction names with
  | nil =>
      intro directory
      rw [List.map_nil, List.append_nil]
      rfl
  | cons name rest inductionHypothesis =>
      intro directory
      have spelled : ofNames [name] = ⟨name.bytes⟩ :=
        congrArg Path.mk (List.append_nil _)
      have nameMoves : (⟨name.bytes⟩ : Path).moves = [name.component] := by
        rw [← spelled]
        exact moves_ofNames [name]
      have entryMoves :
          (directory.entry name).moves =
            directory.moves ++ [name.component] := by
        rw [entry, moves_join name.isAbsolute_eq_false, nameMoves]
      change ((directory.entry name).below rest).moves = _
      rw [inductionHypothesis, entryMoves, List.append_assoc]
      rfl

theorem innerComponents_join
    {base path : Path} (relative : path.isAbsolute = false) :
    (base.join path).innerComponents =
      base.innerComponents ++ path.innerComponents := by
  have moves : (base.join path).moves = base.moves ++ path.moves :=
    moves_join relative
  rw [moves_eq, moves_eq base, moves_of_relative relative,
    isAbsolute_join relative, List.append_assoc] at moves
  exact List.append_cancel_left moves

theorem foldl_apply_names (names : List EntryName) :
    ∀ location : Location,
      ((names.map EntryName.component).map Component.step).foldl Step.apply
          location =
        names.reverse ++ location := by
  induction names with
  | nil =>
      intro location
      rfl
  | cons name rest inductionHypothesis =>
      intro location
      have nameStep : name.component.step = .enter name := name.step_eq_enter
      rw [List.map_cons, List.map_cons, List.foldl_cons, nameStep,
        inductionHypothesis, List.reverse_cons, List.append_assoc]
      rfl

/-- Names below a root lead to the place that they say, seen from where the root
leads. -/
theorem destination_join_ofNames
    (root : Path) (names : List EntryName) (directory : Location) :
    (root.join (ofNames names)).destination directory =
      names.reverse ++ root.destination directory := by
  have relative := isAbsolute_ofNames names
  have nameMoves := moves_of_relative relative
  rw [moves_ofNames] at nameMoves
  rw [destination, innerComponents_join relative, List.map_append,
    List.foldl_append, ← nameMoves, foldl_apply_names, destination,
    FileTree.startOf, isAbsolute_join relative, ← FileTree.startOf]

end Path

namespace FileTree

/-- No entry of the tree is a link. -/
def LinkFree (tree : FileTree) : Prop :=
  ∀ entry ∈ tree.entries, entry.2.isLink = false

instance (tree : FileTree) : Decidable tree.LinkFree :=
  inferInstanceAs (Decidable (∀ entry ∈ tree.entries, _))

variable {tree : FileTree}

theorem Leads.overlong_notMem
    {location target : Location} {steps : List Step} {count : Nat}
    (leads : tree.Leads location steps count target) :
    .overlong ∉ steps := by
  induction leads with
  | arrived _ => exact List.not_mem_nil
  | stay _ _ inductionHypothesis => simpa using inductionHypothesis
  | up _ _ inductionHypothesis => simpa using inductionHypothesis
  | enter _ _ _ _ inductionHypothesis => simpa using inductionHypothesis
  | follow _ _ _ inductionHypothesis =>
      rw [List.mem_append, not_or] at inductionHypothesis
      simpa using inductionHypothesis.2

namespace LinkFree

theorem node?_ne_link
    (free : tree.LinkFree) (location : Location) (target : Path) :
    tree.node? location ≠ some (.link target) := by
  intro present
  cases location with
  | nil => cases present
  | cons name parent =>
      obtain ⟨entry, found, node⟩ := Option.map_eq_some_iff.1 present
      have notLink := free entry (List.mem_of_find?_eq_some found)
      rw [node] at notLink
      cases notLink

/-- Without links a lookup ends where its steps say. -/
theorem leads_eq
    (free : tree.LinkFree) {location target : Location} {steps : List Step}
    {count : Nat} (leads : tree.Leads location steps count target) :
    target = steps.foldl Step.apply location := by
  induction leads with
  | arrived _ => rfl
  | stay _ _ inductionHypothesis => exact inductionHypothesis
  | up _ _ inductionHypothesis => exact inductionHypothesis
  | enter _ _ _ _ inductionHypothesis => exact inductionHypothesis
  | follow _ link _ _ => exact (free.node?_ne_link _ _ link).elim

theorem locate_eq
    (free : tree.LinkFree) {path : Path} {location : Location}
    (located : tree.locate path = .ok location) :
    location = path.destination tree.workingDirectory := by
  obtain ⟨_, count, _, leads⟩ := locate_eq_ok_iff.1 located
  have ended := free.leads_eq leads.movingSteps
  rwa [Path.movingSteps_steps] at ended

end LinkFree

/-- A relative path without a step up that leads anywhere below a root spells
names. -/
theorem exists_names_of_locate
    {root path : Path} {location : Location}
    (relative : path.isAbsolute = false) (noUp : .up ∉ path.moves)
    (located : tree.locate (root.join path) = .ok location) :
    ∃ names, path.normalForm = Path.ofNames names := by
  obtain ⟨_, count, _, leads⟩ := locate_eq_ok_iff.1 located
  have short := leads.movingSteps.overlong_notMem
  rw [Path.movingSteps_steps, Path.innerComponents_join relative,
    List.map_append, List.mem_append, not_or] at short
  rw [Path.moves_of_relative relative] at noUp
  obtain ⟨names, split⟩ :=
    EntryName.exists_names
      (fun _ member => Path.isInner_of_mem_innerComponents member) noUp
      short.2
  refine ⟨names, ?_⟩
  rw [Path.normalForm_eq, Path.moves_of_relative relative, split,
    Path.ofNames_eq]

end FileTree

end HeaderAudit
