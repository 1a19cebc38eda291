import HeaderAudit.FileTree.Edit
import HeaderAudit.Proofs.FileTree.Shape

/-! An edit looks at the shape of a tree only. So a relation between trees of
one shape that nodes put and removed do not disturb is kept by every edit. -/

namespace HeaderAudit.FileTree

/-- Related trees have the same shape and stay related when one node is put
into both, or something is removed from both. -/
structure KeptByEdits (Related : FileTree → FileTree → Prop) : Prop where
  sameShape : ∀ {left right}, Related left right → left.SameShape right
  put :
    ∀ {left right}, Related left right →
      ∀ location node,
        Related (left.put location node) (right.put location node)
  remove :
    ∀ {left right}, Related left right →
      ∀ location, Related (left.remove location) (right.remove location)

theorem rel_bind
    {first second former latter : Type}
    {before : first → second → Prop} {after : former → latter → Prop}
    {start : Option first} {other : Option second}
    {next : first → Option former} {otherNext : second → Option latter}
    (started : Option.Rel before start other)
    (goesOn :
      ∀ given otherGiven, before given otherGiven →
        Option.Rel after (next given) (otherNext otherGiven)) :
    Option.Rel after (start >>= next) (other >>= otherNext) := by
  cases started with
  | none => exact .none
  | some given => exact goesOn _ _ given

namespace SameShape

variable {left right : FileTree}

theorem node?_eq_directory_iff
    (same : left.SameShape right) (location : Location) :
    left.node? location = some .directory ↔
      right.node? location = some .directory := by
  constructor
  · intro present
    exact same.node?_of_not_file present nofun
  · intro present
    exact same.symm.node?_of_not_file present nofun

theorem isNone_node?
    (same : left.SameShape right) (location : Location) :
    (left.node? location).isNone = (right.node? location).isNone := by
  rw [← Option.not_isSome, ← Option.not_isSome, same.isSome_node?]

theorem writePlace_eq (same : left.SameShape right) (links : Nat) :
    ∀ parent name,
      left.writePlace links parent name =
        right.writePlace links parent name := by
  induction links with
  | zero =>
      intro parent name
      rfl
  | succ links inductionHypothesis =>
      intro parent name
      unfold writePlace
      simp only [same.resolve_eq, same.node?_eq_directory_iff,
        inductionHypothesis]
      rcases same.nodes (name :: parent) with equal | ⟨_, _, first, second⟩
      · rw [equal]
      · rw [first, second]

end SameShape

namespace KeptByEdits

variable
  {Related : FileTree → FileTree → Prop} {left right : FileTree}

theorem makeDirectories
    (kept : KeptByEdits Related) (steps : List Step) :
    ∀ {left right}, Related left right → ∀ location,
      Option.Rel
        (fun first second =>
          Related first.1 second.1 ∧ first.2 = second.2)
        (left.makeDirectories location steps)
        (right.makeDirectories location steps) := by
  induction steps with
  | nil =>
      intro left right related location
      have same := kept.sameShape related
      simp only [FileTree.makeDirectories, same.node?_eq_directory_iff]
      split
      · exact .some ⟨related, rfl⟩
      · exact .none
  | cons step rest inductionHypothesis =>
      intro left right related location
      have same := kept.sameShape related
      cases step with
      | stay => exact inductionHypothesis related location
      | up => exact inductionHypothesis related location.tail
      | overlong => exact .none
      | enter name =>
          simp only [FileTree.makeDirectories, same.resolve_eq]
          rcases same.nodes (name :: location) with
            equal | ⟨_, _, first, second⟩
          · rw [equal]
            split
            · exact inductionHypothesis (kept.put related _ _) _
            · exact inductionHypothesis related _
            · split
              · exact inductionHypothesis related _
              · exact .none
            · exact .none
          · rw [first, second]
            exact .none

theorem makeParent
    (kept : KeptByEdits Related) (related : Related left right)
    (path : Path) :
    Option.Rel
      (fun first second =>
        Related first.1 second.1 ∧ first.2 = second.2)
      (left.makeParent path) (right.makeParent path) := by
  unfold FileTree.makeParent
  cases path.lastStep? with
  | none => exact .none
  | some steps =>
      rw [(kept.sameShape related).workingDirectory]
      apply rel_bind (kept.makeDirectories steps.1 related _)
      intro first second made
      cases steps.2 with
      | enter name => exact .some ⟨made.1, by rw [made.2]⟩
      | stay => exact .none
      | up => exact .none
      | overlong => exact .none

theorem create
    (kept : KeptByEdits Related) (related : Related left right)
    (path : Path) (node : Node) :
    Option.Rel Related (left.create path node) (right.create path node) := by
  unfold FileTree.create
  apply rel_bind (kept.makeParent related path)
  intro first second made
  simp only [(kept.sameShape made.1).isNone_node?, made.2]
  split
  · exact .some (kept.put made.1 _ node)
  · exact .none

theorem edit?
    (kept : KeptByEdits Related) (related : Related left right)
    (change : Edit) :
    Option.Rel Related (left.edit? change) (right.edit? change) := by
  have same := kept.sameShape related
  cases change with
  | file path content =>
      apply rel_bind (kept.makeParent related path)
      intro first second made
      simp only [(kept.sameShape made.1).writePlace_eq, made.2]
      cases second.1.writePlace (mostLinks + 1) second.2.1 second.2.2 with
      | none => exact .none
      | some place => exact .some (kept.put made.1 place _)
  | directory path =>
      unfold FileTree.edit?
      rw [same.workingDirectory]
      apply rel_bind (kept.makeDirectories path.steps related _)
      intro first second made
      exact .some made.1
  | link path target => exact kept.create related path _
  | socket path => exact kept.create related path _
  | remove path =>
      simp only [FileTree.edit?, same.workingDirectory, same.resolve_eq,
        same.isSome_node?]
      cases path.lastStep? with
      | none => exact .none
      | some steps =>
          simp only [Option.bind_eq_bind, Option.bind_some]
          cases (right.resolve mostLinks
              (startOf path right.workingDirectory) steps.1).toOption with
          | none => exact .none
          | some parent =>
              cases steps.2 with
              | enter name =>
                  simp only [Option.bind_some]
                  split
                  · exact .some (kept.remove related _)
                  · exact .none
              | stay => exact .none
              | up => exact .none
              | overlong => exact .none

theorem edit
    (kept : KeptByEdits Related) (related : Related left right)
    (change : Edit) :
    Related (left.edit change) (right.edit change) := by
  unfold FileTree.edit
  have changed := kept.edit? related change
  generalize left.edit? change = former at changed
  generalize right.edit? change = latter at changed
  cases changed with
  | none => exact related
  | some made => exact made

theorem editAll (kept : KeptByEdits Related) (changes : List Edit) :
    ∀ {left right}, Related left right →
      Related (left.editAll changes) (right.editAll changes) := by
  induction changes with
  | nil => exact fun related => related
  | cons change rest inductionHypothesis =>
      intro left right related
      exact inductionHypothesis (kept.edit related change)

end KeptByEdits

theorem outline_put (tree : FileTree) (location : Location) (node : Node) :
    (tree.put location node).outline =
      tree.outline.put location node.outline := by
  simp only [outline, put, filter, List.map_append, List.filter_map, mk.injEq,
    and_true]
  rfl

theorem outline_remove (tree : FileTree) (location : Location) :
    (tree.remove location).outline = tree.outline.remove location := by
  simp only [outline, remove, filter, List.filter_map, mk.injEq, and_true]
  rfl

/-- Edits on trees with one outline leave trees with one outline. -/
theorem keptByEdits_outline :
    KeptByEdits fun left right => left.outline = right.outline where
  sameShape same := sameShape_of_outline_eq same
  put same location node := by
    rw [outline_put, outline_put, same]
  remove same location := by
    rw [outline_remove, outline_remove, same]

end HeaderAudit.FileTree
