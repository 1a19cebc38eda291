import HeaderAudit.Proofs.FileTree.Edits
import Mathlib.Data.List.Nodup
import Mathlib.Data.List.Sort
import Mathlib.Data.Option.Basic

/-! A reordered tree holds the same entries in another order; it has the same
node at every location. -/

namespace HeaderAudit.FileTree

/-- The trees hold the same entries, each in an order of its own. -/
structure Reordered (left right : FileTree) : Prop where
  workingDirectory : left.workingDirectory = right.workingDirectory
  unreadable : left.unreadable = right.unreadable
  entries : left.entries.Perm right.entries

/-- An entry of a tree is what is at its location. -/
theorem node?_eq_some_iff
    {tree : FileTree} {name : EntryName} {parent : Location} {node : Node} :
    tree.node? (name :: parent) = some node ↔
      (name :: parent, node) ∈ tree.entries := by
  simp only [node?, Option.map_eq_some_iff]
  constructor
  · intro present
    obtain ⟨entry, found, rfl⟩ := present
    have located : entry.1 = name :: parent :=
      isAt_iff.1 (List.find?_some found)
    rw [← located]
    exact List.mem_of_find?_eq_some found
  · intro member
    have present :
        (tree.entries.find? (isAt (name :: parent))).isSome = true :=
      List.find?_isSome.2 ⟨_, member, isAt_iff.2 rfl⟩
    obtain ⟨entry, found⟩ := Option.isSome_iff_exists.1 present
    have located : entry.1 = name :: parent :=
      isAt_iff.1 (List.find?_some found)
    -- No two entries are at one location.
    have same : entry = (name :: parent, node) :=
      List.inj_on_of_nodup_map tree.locationsNodup
        (List.mem_of_find?_eq_some found) member located
    exact ⟨entry, found, by rw [same]⟩

theorem location_of_listed
    {entry : Location × Node} {directory : Location} {name : EntryName}
    (listed :
      (match entry.1 with
        | name :: parent => if parent = directory then some name else none
        | [] => none) = some name) :
    entry.1 = name :: directory := by
  split at listed
  · rename_i present parent split
    split at listed
    · rename_i sameParent
      cases listed
      rw [split, sameParent]
    · cases listed
  · cases listed

theorem nodup_listing (tree : FileTree) (directory : Location) :
    (tree.listing directory).Nodup := by
  have apart := List.pairwise_map.1 tree.locationsNodup
  refine List.pairwise_filterMap.2 (apart.imp ?_)
  intro former latter different name formerListed other latterListed same
  apply different
  rw [location_of_listed formerListed, location_of_listed latterListed, same]

namespace Reordered

variable {left right : FileTree}

theorem symm (same : left.Reordered right) : right.Reordered left :=
  ⟨same.workingDirectory.symm, same.unreadable.symm, same.entries.symm⟩

theorem listing_perm (same : left.Reordered right) (directory : Location) :
    (left.listing directory).Perm (right.listing directory) :=
  same.entries.filterMap _

/-- Where the name of an entry stands in the order of its directory. -/
def place (order : Location → List EntryName) (entry : Location × Node) : Nat :=
  match entry.1 with
  | name :: parent => (order parent).idxOf name
  | [] => 0

theorem pairwise_idxOf_le {names : List EntryName} (distinct : names.Nodup) :
    names.Pairwise fun first second =>
      names.idxOf first ≤ names.idxOf second := by
  rw [List.pairwise_iff_getElem]
  intro first second firstBound secondBound before
  rw [distinct.idxOf_getElem, distinct.idxOf_getElem]
  exact Nat.le_of_lt before

/-- Whatever the orders are in which the directories are to list their names,
some reordered tree lists them so. -/
theorem exists_listing_eq
    (tree : FileTree) {order : Location → List EntryName}
    (orders : ∀ directory, (order directory).Perm (tree.listing directory)) :
    ∃ other, tree.Reordered other ∧ other.listing = order := by
  -- The entries are sorted by the places of their names.
  let before (first second : Location × Node) : Bool :=
    decide (place order first ≤ place order second)
  have permuted : (tree.entries.mergeSort before).Perm tree.entries :=
    List.mergeSort_perm _ _
  have sorted :
      (tree.entries.mergeSort before).Pairwise fun first second =>
        place order first ≤ place order second := by
    have transitive (first second third : Location × Node)
        (left : before first second = true)
        (right : before second third = true) :
        before first third = true :=
      decide_eq_true <|
        Nat.le_trans (of_decide_eq_true left) (of_decide_eq_true right)
    have total (first second : Location × Node) :
        (before first second || before second first) = true := by
      simpa [before] using Nat.le_total _ _
    exact
      (List.pairwise_mergeSort transitive total tree.entries).imp
        of_decide_eq_true
  let other : FileTree :=
    ⟨tree.entries.mergeSort before, tree.workingDirectory,
      (permuted.map Prod.fst).nodup_iff.2 tree.locationsNodup,
      tree.unreadable⟩
  have same : tree.Reordered other := ⟨rfl, rfl, permuted.symm⟩
  refine ⟨other, same, funext fun directory => ?_⟩
  have listed : (order directory).Perm (other.listing directory) :=
    (orders directory).trans (same.listing_perm directory)
  have distinct : (order directory).Nodup :=
    (orders directory).nodup_iff.2 (nodup_listing tree directory)
  have listingSorted :
      (other.listing directory).Pairwise fun first second =>
        (order directory).idxOf first ≤ (order directory).idxOf second := by
    refine List.pairwise_filterMap.2 (sorted.imp ?_)
    intro former latter inOrder name formerListed other latterListed
    simpa only [place, location_of_listed formerListed,
      location_of_listed latterListed] using inOrder
  refine listed.symm.eq_of_pairwise ?_ listingSorted
    (pairwise_idxOf_le distinct)
  intro first second firstMember _ notAfter notBefore
  exact
    (List.idxOf_inj (listed.mem_iff.2 firstMember)).1
      (Nat.le_antisymm notAfter notBefore)

theorem node?_eq (same : left.Reordered right) (location : Location) :
    left.node? location = right.node? location := by
  cases location with
  | nil => rfl
  | cons name parent =>
      apply Option.ext
      intro node
      rw [node?_eq_some_iff, node?_eq_some_iff, same.entries.mem_iff]

theorem sameShape (same : left.Reordered right) : left.SameShape right where
  workingDirectory := same.workingDirectory
  unreadable := same.unreadable
  nodes location := Or.inl (same.node?_eq location)

theorem read_eq (same : left.Reordered right) (path : Path) :
    left.read path = right.read path := by
  simp only [read, find, same.sameShape.locate_eq, same.node?_eq,
    same.unreadable]

/-- Edits on reordered trees leave reordered trees. -/
theorem keptByEdits : KeptByEdits Reordered where
  sameShape same := same.sameShape
  put same _ _ :=
    { workingDirectory := same.workingDirectory
      unreadable := same.unreadable
      entries := (same.entries.filter _).append_right _ }
  remove same _ :=
    { workingDirectory := same.workingDirectory
      unreadable := by
        simp only [remove, same.unreadable]
      entries := same.entries.filter _ }

end Reordered

end HeaderAudit.FileTree
