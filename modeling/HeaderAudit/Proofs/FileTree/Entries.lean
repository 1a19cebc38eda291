import HeaderAudit.Proofs.FileTree.Spelling

namespace HeaderAudit

namespace Path

/-- The path of the entry with a name. -/
def entry (directory : Path) (name : EntryName) : Path :=
  directory.join ⟨name.bytes⟩

/-- The path that names lead to, the outermost name first. -/
def below (directory : Path) (names : List EntryName) : Path :=
  names.foldl entry directory

end Path

theorem EntryName.isAbsolute_eq_false (name : EntryName) :
    (⟨name.bytes⟩ : Path).isAbsolute = false := by
  obtain ⟨first, rest, split⟩ := List.exists_cons_of_ne_nil name.notEmpty
  have firstNeSlash : first ≠ slash := by
    intro same
    exact name.noSlash (by simp [split, same])
  simpa [Path.isAbsolute, split] using firstNeSlash

theorem EntryName.ofBytes?_bytes (name : EntryName) :
    EntryName.ofBytes? name.bytes = some name := by
  have valid :=
    And.intro name.notEmpty <| And.intro name.notDots <|
      And.intro name.noSlash <| And.intro name.noNul name.short
  simp [EntryName.ofBytes?, valid]

theorem EntryName.step_eq_enter (name : EntryName) :
    Step.ofPiece name.bytes = .enter name := by
  simp [Step.ofPiece, name.notEmpty, name.notDots, name.ofBytes?_bytes]

theorem EntryName.steps_eq (name : EntryName) :
    (⟨name.bytes⟩ : Path).steps = [.enter name] := by
  rw [Path.steps, Path.pieces, List.splitOn_eq_singleton name.noSlash,
    List.map_singleton, name.step_eq_enter]

namespace Path

theorem isAbsolute_entry (directory : Path) (name : EntryName) :
    (directory.entry name).isAbsolute = directory.isAbsolute :=
  isAbsolute_join name.isAbsolute_eq_false

theorem isAbsolute_below (names : List EntryName) :
    ∀ directory : Path,
      (directory.below names).isAbsolute = directory.isAbsolute := by
  induction names with
  | nil =>
      intro directory
      rfl
  | cons name rest inductionHypothesis =>
      intro directory
      exact
        (inductionHypothesis (directory.entry name)).trans
          (directory.isAbsolute_entry name)

theorem below_join (names : List EntryName) (base : Path) :
    ∀ {directory : Path}, directory.isAbsolute = false →
      (base.join directory).below names =
        base.join (directory.below names) := by
  induction names with
  | nil =>
      intro directory _
      rfl
  | cons name rest inductionHypothesis =>
      intro directory relative
      have entryRelative : (directory.entry name).isAbsolute = false := by
        rw [isAbsolute_entry, relative]
      have joined :
          (base.join directory).entry name =
            base.join (directory.entry name) :=
        join_join relative name.isAbsolute_eq_false
      change ((base.join directory).entry name).below rest = _
      rw [joined]
      exact inductionHypothesis entryRelative

/-- The steps of a path below a base are its own after those of the base, less
the one that a slash at the end of the base stands for. -/
theorem steps_join
    {base : Path} (notEmpty : base.bytes ≠ []) :
    ∃ before,
      (base.steps = before ∨ base.steps = before ++ [.stay]) ∧
        ∀ path, path.isAbsolute = false →
          (base.join path).steps = before ++ path.steps := by
  obtain ⟨before, spelled, opened⟩ := withSlash_of_ne_nil notEmpty
  have baseEq : base = ⟨base.bytes⟩ := rfl
  refine ⟨(⟨before⟩ : Path).steps, ?_, ?_⟩
  · rcases spelled with same | same
    · left
      rw [baseEq, same]
    · right
      rw [baseEq, same, steps, pieces_append_slash, List.map_append]
      rfl
  · intro path relative
    rw [join_of_relative base relative, opened, List.append_assoc,
      List.singleton_append, steps, pieces_append_slash, List.map_append]
    rfl

end Path

namespace FileTree

variable {tree : FileTree}

theorem mem_listing_iff {directory : Location} {name : EntryName} :
    name ∈ tree.listing directory ↔
      (tree.node? (name :: directory)).isSome = true := by
  simp only [listing, List.mem_filterMap, node?, Option.isSome_map,
    List.find?_isSome, isAt_iff]
  constructor
  · intro listed
    obtain ⟨found, foundMember, named⟩ := listed
    refine ⟨found, foundMember, ?_⟩
    split at named
    · rename_i parentName parent split
      split at named
      · rename_i sameParent
        cases named
        rw [split, sameParent]
      · cases named
    · cases named
  · intro present
    obtain ⟨found, foundMember, located⟩ := present
    exact ⟨found, foundMember, by simp [located]⟩

theorem node?_put_self
    (tree : FileTree) {location : Location} (inside : location ≠ [])
    (node : Node) :
    (tree.put location node).node? location = some node := by
  obtain ⟨name, parent, rfl⟩ := List.exists_cons_of_ne_nil inside
  have removed :
      (tree.entries.filter fun entry => entry.1 != name :: parent).find?
          (isAt (name :: parent)) = none := by
    rw [List.find?_eq_none]
    intro entry kept
    have different := (List.mem_filter.1 kept).2
    simpa using different
  simp [node?, put, filter, List.find?_append, removed]

theorem node?_put_of_ne
    (tree : FileTree) {location tested : Location}
    (different : tested ≠ location) (node : Node) :
    (tree.put location node).node? tested = tree.node? tested := by
  cases tested with
  | nil => rfl
  | cons name parent =>
      have isKept :
          (fun entry : Location × Node =>
              decide
                ((entry.1 != location) = true ∧
                  isAt (name :: parent) entry = true)) =
            isAt (name :: parent) := by
        funext entry
        rw [Bool.eq_iff_iff, decide_eq_true_iff, and_iff_right_of_imp]
        intro found
        rw [isAt_iff.1 found]
        simpa using different
      have elsewhere : ¬ isAt (name :: parent) (location, node) = true := by
        rw [isAt_iff]
        exact different.symm
      simp only [node?, put, filter, List.find?_append, List.find?_filter,
        isKept, List.find?_cons_of_neg elsewhere, List.find?_nil,
        Option.or_none]

/-- A lookup below a directory goes on from where the directory is, and follows
the links on the way there first. -/
theorem exists_leads_join_iff
    {base : Path} {home : Location} (located : tree.locate base = .ok home) :
    ∃ before ≤ mostLinks,
      ∀ path, path.isAbsolute = false → ∀ total target,
        tree.Leads (startOf (base.join path) tree.workingDirectory)
            (base.join path).steps total target ↔
          ∃ count, total = before + count ∧
            tree.Leads home path.steps count target := by
  obtain ⟨accepted, count, enough, leads⟩ := locate_eq_ok_iff.1 located
  obtain ⟨opening, spelled, joined⟩ := Path.steps_join accepted.2.1
  have opens :
      tree.Leads (startOf base tree.workingDirectory) opening count home := by
    rcases spelled with same | same
    · rwa [same] at leads
    · rw [same] at leads
      obtain ⟨middle, first, second, toMiddle, stays, sum⟩ :=
        leads.exists_middle
      cases stays with
      | stay _ arrived =>
          cases arrived
          rwa [sum]
  refine ⟨count, enough, fun path relative total target => ?_⟩
  rw [joined path relative, startOf, Path.isAbsolute_join relative, ← startOf]
  constructor
  · intro whole
    obtain ⟨middle, first, second, toMiddle, onward, sum⟩ :=
      whole.exists_middle
    obtain ⟨rfl, rfl⟩ := toMiddle.unique opens
    exact ⟨second, sum, onward⟩
  · rintro ⟨later, rfl, onward⟩
    exact opens.append onward

/-- The path of an entry leads on from where the path of its directory
leads. -/
theorem leads_of_locate_entry
    {directory : Path} {here reached : Location} {name : EntryName}
    (located : tree.locate directory = .ok here)
    (entryLocated : tree.locate (directory.entry name) = .ok reached) :
    ∃ count, tree.Leads here [.enter name] count reached := by
  obtain ⟨_, total, _, entryLeads⟩ := locate_eq_ok_iff.1 entryLocated
  obtain ⟨_, _, leadsJoin⟩ := exists_leads_join_iff located
  obtain ⟨count, _, onward⟩ :=
    (leadsJoin ⟨name.bytes⟩ name.isAbsolute_eq_false total reached).1
      entryLeads
  rw [name.steps_eq] at onward
  exact ⟨count, onward⟩

theorem isSome_node?_of_find_entry
    {directory : Path} {here : Location} {name : EntryName}
    {found : Location × Node}
    (located : tree.locate directory = .ok here)
    (leadsOn : tree.find (directory.entry name) = .ok found) :
    (tree.node? (name :: here)).isSome = true := by
  obtain ⟨entryLocated, _⟩ := find_eq_ok_iff.1 leadsOn
  obtain ⟨_, leads⟩ := leads_of_locate_entry located entryLocated
  cases leads with
  | enter _ present _ _ => simp [present]
  | follow _ present _ => simp [present]

/-- The path of an entry that is no link leads to the entry itself. -/
theorem location_of_locate_entry
    {directory : Path} {here reached : Location} {name : EntryName}
    {node : Node}
    (located : tree.locate directory = .ok here)
    (present : tree.node? (name :: here) = some node)
    (notLink : ∀ target, node ≠ .link target)
    (entryLocated : tree.locate (directory.entry name) = .ok reached) :
    reached = name :: here := by
  obtain ⟨_, leads⟩ := leads_of_locate_entry located entryLocated
  cases leads with
  | enter _ _ _ arrived =>
      cases arrived
      rfl
  | @follow _ _ _ target _ _ _ link _ =>
      rw [present] at link
      cases link
      exact (notLink target rfl).elim

end FileTree

end HeaderAudit
