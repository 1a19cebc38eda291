import HeaderAudit.Proofs.FileTree.Leads
import HeaderAudit.Proofs.Path.Bytes
import HeaderAudit.Proofs.Path.Join

/-! Where a path leads is decided by its moves, except that a spelling which
ends in a slash or a dot leads to nothing but directories. -/

namespace HeaderAudit

/-! ## Steps that move -/

/-- The step of one component. -/
def Component.step : Component → Step
  | .root => .stay
  | .here => .stay
  | .up => .up
  | .name bytes => Step.ofPiece bytes

/-- The steps other than staying. -/
def movingSteps (steps : List Step) : List Step :=
  steps.filter (· ≠ .stay)

theorem Component.IsInner.step_ne_stay
    {component : Component} (inner : component.IsInner) :
    component.step ≠ .stay := by
  cases component with
  | up => decide
  | name bytes =>
      obtain ⟨notEmpty, notDot, notDots, _⟩ := inner
      simp only [step, Step.ofPiece, notEmpty, notDot, notDots, or_self,
        if_false]
      split <;> exact Step.noConfusion
  | root => exact inner.elim
  | here => exact inner.elim

theorem Step.ofPiece_of_none
    {piece : List UInt8} (nothing : Component.ofPiece? piece = none) :
    Step.ofPiece piece = .stay := by
  unfold Component.ofPiece? at nothing
  unfold Step.ofPiece
  split at nothing
  · rename_i stays
    rw [if_pos stays]
  · split at nothing <;> cases nothing

theorem Step.ofPiece_of_some
    {piece : List UInt8} {component : Component}
    (read : Component.ofPiece? piece = some component) :
    Step.ofPiece piece = component.step := by
  unfold Component.ofPiece? at read
  split at read
  · cases read
  · rename_i moves
    split at read
    · rename_i ups
      cases read
      rw [ups]
      rfl
    · cases read
      rfl

theorem movingSteps_map_ofPiece
    {pieces : List (List UInt8)} (noSlash : ∀ piece ∈ pieces, slash ∉ piece) :
    movingSteps (pieces.map Step.ofPiece) =
      (pieces.filterMap Component.ofPiece?).map Component.step := by
  induction pieces with
  | nil => rfl
  | cons piece others inductionHypothesis =>
      have othersEq :=
        inductionHypothesis fun other member =>
          noSlash other (List.mem_cons_of_mem piece member)
      unfold movingSteps at othersEq ⊢
      cases read : Component.ofPiece? piece with
      | none =>
          rw [List.filterMap_cons_none read, List.map_cons,
            Step.ofPiece_of_none read, ← othersEq]
          rfl
      | some component =>
          have inner :=
            Component.isInner_of_ofPiece?
              (noSlash piece List.mem_cons_self) read
          rw [List.filterMap_cons_some read, List.map_cons, List.map_cons,
            Step.ofPiece_of_some read, ← othersEq,
            List.filter_cons_of_pos (by simpa using inner.step_ne_stay)]

theorem Path.movingSteps_steps (path : Path) :
    movingSteps path.steps = path.innerComponents.map Component.step :=
  movingSteps_map_ofPiece fun _ member => notMem_of_mem_splitOn member

theorem Path.innerComponents_congr
    {left right : Path} (sameMoves : left.moves = right.moves) :
    left.innerComponents = right.innerComponents := by
  have sameStart := isAbsolute_congr sameMoves
  rw [moves_eq, moves_eq, sameStart] at sameMoves
  exact List.append_cancel_left sameMoves

namespace FileTree

variable {tree : FileTree}

namespace Leads

theorem movingSteps
    {target : Location} {steps : List Step} :
    ∀ {location : Location} {count : Nat},
      tree.Leads location steps count target →
        tree.Leads location (movingSteps steps) count target := by
  induction steps with
  | nil =>
      intro location count leads
      exact leads
  | cons step rest inductionHypothesis =>
      intro location count leads
      by_cases stays : step = .stay
      · subst stays
        cases leads with
        | stay _ tail => exact inductionHypothesis tail
      · have split : tree.Leads location ([step] ++ rest) count target := leads
        obtain ⟨middle, first, second, left, right, sum⟩ := exists_middle split
        have kept :
            HeaderAudit.movingSteps (step :: rest) =
              [step] ++ HeaderAudit.movingSteps rest := by
          simp [HeaderAudit.movingSteps, stays]
        rw [kept, sum]
        exact left.append (inductionHypothesis right)

/-- Staying can be put in anywhere but at the end, and also there when the
target is a directory. -/
theorem of_movingSteps
    {target : Location} {steps : List Step} :
    ∀ {location : Location} {count : Nat},
      tree.Leads location (HeaderAudit.movingSteps steps) count target →
        (steps.getLast? = some .stay →
          tree.node? target = some .directory) →
        tree.Leads location steps count target := by
  induction steps with
  | nil =>
      intro location count leads _
      exact leads
  | cons step rest inductionHypothesis =>
      intro location count leads closed
      have restClosed :
          rest.getLast? = some .stay → tree.node? target = some .directory := by
        intro last
        apply closed
        rw [List.getLast?_cons, last]
        rfl
      by_cases stays : step = .stay
      · subst stays
        have restLeads := inductionHypothesis leads restClosed
        refine .stay ?_ restLeads
        cases rest with
        | nil =>
            cases restLeads
            exact closed rfl
        | cons next others => exact restLeads.directory_of_cons
      · have kept :
            HeaderAudit.movingSteps (step :: rest) =
              [step] ++ HeaderAudit.movingSteps rest := by
          simp [HeaderAudit.movingSteps, stays]
        rw [kept] at leads
        obtain ⟨middle, first, second, left, right, sum⟩ :=
          exists_middle leads
        rw [sum]
        exact left.append (inductionHypothesis right restClosed)

theorem directory_of_movingSteps_eq_nil
    {location target : Location} {steps : List Step} {count : Nat}
    (leads : tree.Leads location steps count target) (notEmpty : steps ≠ [])
    (onlyStays : HeaderAudit.movingSteps steps = []) :
    tree.node? target = some .directory := by
  have still := leads.movingSteps
  rw [onlyStays] at still
  cases still
  cases steps with
  | nil => exact (notEmpty rfl).elim
  | cons step rest => exact leads.directory_of_cons

end Leads

/-! ## Spelling a path again -/

theorem startOf_congr
    {left right : Path} (sameMoves : left.moves = right.moves)
    (directory : Location) :
    startOf left directory = startOf right directory := by
  rw [startOf, startOf, Path.isAbsolute_congr sameMoves]

/-- Two paths with the same moves never lead to two places. -/
theorem location_eq_of_moves_eq
    {left right : Path} {leftEnd rightEnd : Location}
    (sameMoves : left.moves = right.moves)
    (leftFound : tree.locate left = .ok leftEnd)
    (rightFound : tree.locate right = .ok rightEnd) :
    leftEnd = rightEnd := by
  obtain ⟨_, leftCount, _, leftLeads⟩ := locate_eq_ok_iff.1 leftFound
  obtain ⟨_, rightCount, _, rightLeads⟩ := locate_eq_ok_iff.1 rightFound
  have leftMoves := leftLeads.movingSteps
  have rightMoves := rightLeads.movingSteps
  rw [Path.movingSteps_steps, Path.innerComponents_congr sameMoves,
    startOf_congr sameMoves] at leftMoves
  rw [Path.movingSteps_steps] at rightMoves
  exact (leftMoves.unique rightMoves).1

/-- A path that moves as one that leads to a file, and does not end in a slash
or a dot, leads to that file. -/
theorem find_of_moves_eq
    {path other : Path} {location : Location} {node : Node}
    (found : tree.find path = .ok (location, node))
    (sameMoves : other.moves = path.moves) (accepted : other.IsAccepted)
    (endsOpen : other.steps.getLast? ≠ some .stay) :
    tree.find other = .ok (location, node) := by
  obtain ⟨located, present⟩ := find_eq_ok_iff.1 found
  obtain ⟨_, count, enough, leads⟩ := locate_eq_ok_iff.1 located
  refine find_eq_ok_iff.2 ⟨locate_eq_ok_iff.2 ⟨accepted, ?_⟩, present⟩
  have moving := leads.movingSteps
  rw [Path.movingSteps_steps, ← Path.innerComponents_congr sameMoves,
    ← startOf_congr sameMoves, ← Path.movingSteps_steps] at moving
  exact ⟨count, enough, moving.of_movingSteps fun last => (endsOpen last).elim⟩

theorem innerComponents_ne_nil_of_file
    {path : Path} {location : Location} {content : List UInt8}
    (found : tree.find path = .ok (location, .file content)) :
    path.innerComponents ≠ [] := by
  intro empty
  obtain ⟨located, present⟩ := find_eq_ok_iff.1 found
  obtain ⟨_, count, _, leads⟩ := locate_eq_ok_iff.1 located
  have stepsNotEmpty : path.steps ≠ [] := by
    simp [Path.steps, Path.pieces, List.splitOn_ne_nil]
  have onlyStays : movingSteps path.steps = [] := by
    rw [Path.movingSteps_steps, empty, List.map_nil]
  have directory :=
    leads.directory_of_movingSteps_eq_nil stepsNotEmpty onlyStays
  rw [present] at directory
  cases directory

/-! ## Candidates below a root -/

theorem getLast?_steps_normalForm
    {path : Path} (notEmpty : path.innerComponents ≠ []) :
    path.normalForm.steps.getLast? ≠ some .stay := by
  obtain ⟨before, last, split⟩ :=
    (List.eq_nil_or_concat' path.innerComponents).resolve_left notEmpty
  have lastMember : last ∈ path.innerComponents := by
    simp [split]
  have lastInner := Path.isInner_of_mem_innerComponents lastMember
  have lastStep : Step.ofPiece last.piece ≠ .stay := by
    rw [Step.ofPiece_of_some lastInner.ofPiece?_piece]
    exact lastInner.step_ne_stay
  rw [Path.steps, Path.pieces_normalForm notEmpty, split]
  simpa using lastStep

theorem getLast?_steps_join
    {base path : Path} (relative : path.isAbsolute = false) :
    (base.join path).steps.getLast? = path.steps.getLast? := by
  rw [Path.join_of_relative base relative]
  by_cases empty : base.bytes = []
  · rw [empty]
    rfl
  · obtain ⟨before, _, opened⟩ := Path.withSlash_of_ne_nil empty
    obtain ⟨front, last, split⟩ :=
      (List.eq_nil_or_concat' path.pieces).resolve_left
        (List.splitOn_ne_nil slash path.bytes)
    rw [opened, List.append_assoc, List.singleton_append, Path.steps,
      Path.pieces_append_slash, Path.steps, split]
    simp

/-- Joining a normal form brings in no byte that a path with the same moves
does not have. -/
theorem notMem_zero_join
    {base path source : Path} (baseClean : 0 ∉ base.bytes)
    (sourceClean : 0 ∉ source.bytes)
    (sameMoves : (base.join path.normalForm).moves = source.moves) :
    0 ∉ (base.join path.normalForm).bytes := by
  have formClean : 0 ∉ path.normalForm.bytes := by
    intro member
    rcases Path.mem_bytes_normalForm member with
      impossible | ⟨component, componentMember, inPiece⟩
    · cases impossible
    · apply sourceClean
      refine Path.mem_bytes_of_mem_piece ?_ inPiece
      rw [← sameMoves]
      cases absolute : path.normalForm.isAbsolute with
      | false =>
          rw [Path.moves_join absolute, Path.moves_normalForm]
          exact List.mem_append_right _ componentMember
      | true =>
          rw [Path.join_of_absolute base absolute, Path.moves_normalForm]
          exact componentMember
  cases absolute : path.normalForm.isAbsolute with
  | true =>
      rw [Path.join_of_absolute base absolute]
      exact formClean
  | false =>
      rw [Path.join_of_relative base absolute]
      intro member
      rcases List.mem_append.1 member with front | back
      · unfold Path.withSlash at front
        split at front
        · exact baseClean front
        · rcases List.mem_append.1 front with inBase | inSlash
          · exact baseClean inBase
          · cases List.mem_singleton.1 inSlash
      · exact formClean back

/-- A normal form below a root leads to the file that a path with the same
moves leads to. -/
theorem find_join_of_file
    {root path source : Path} {location : Location} {content : List UInt8}
    (rootDirectory : tree.isDirectory root = true)
    (found : tree.find source = .ok (location, .file content))
    (sameMoves : (root.join path.normalForm).moves = source.moves)
    (short : (root.join path.normalForm).bytes.length ≤ longestPath) :
    tree.find (root.join path.normalForm) = .ok (location, .file content) := by
  obtain ⟨rootEnd, rootFound⟩ := isDirectory_iff.1 rootDirectory
  obtain ⟨rootLocated, rootPresent⟩ := find_eq_ok_iff.1 rootFound
  obtain ⟨located, present⟩ := find_eq_ok_iff.1 found
  obtain ⟨rootAccepted, _⟩ := locate_eq_ok_iff.1 rootLocated
  obtain ⟨sourceAccepted, _⟩ := locate_eq_ok_iff.1 located
  have clean :=
    notMem_zero_join rootAccepted.1 sourceAccepted.1 sameMoves
  have notEmpty : path.innerComponents ≠ [] := by
    intro empty
    cases absolute : path.normalForm.isAbsolute with
    | true =>
        rw [Path.join_of_absolute root absolute, Path.moves_normalForm]
          at sameMoves
        rw [Path.innerComponents_congr sameMoves] at empty
        exact innerComponents_ne_nil_of_file found empty
    | false =>
        -- The source would move as the root does, which is a directory.
        rw [Path.moves_join absolute, Path.moves_of_relative absolute,
          Path.innerComponents_congr path.moves_normalForm, empty,
          List.append_nil] at sameMoves
        rw [location_eq_of_moves_eq sameMoves rootLocated located, present]
          at rootPresent
        cases rootPresent
  have endsOpen :
      (root.join path.normalForm).steps.getLast? ≠ some .stay := by
    cases absolute : path.normalForm.isAbsolute with
    | true =>
        rw [Path.join_of_absolute root absolute]
        exact getLast?_steps_normalForm notEmpty
    | false =>
        rw [getLast?_steps_join absolute]
        exact getLast?_steps_normalForm notEmpty
  have bytesNotEmpty : (root.join path.normalForm).bytes ≠ [] := by
    intro empty
    apply endsOpen
    rw [Path.steps, Path.pieces, empty]
    rfl
  exact find_of_moves_eq found sameMoves ⟨clean, bytesNotEmpty, short⟩ endsOpen

end FileTree

end HeaderAudit
