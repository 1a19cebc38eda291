import HeaderAudit.Proofs.FileTree.Entries

/-! A lookup is within the limits when they make no difference to it. Links
that lead round in a circle are, since they would lead nowhere with any number
of links. -/

namespace HeaderAudit

namespace Path

theorem mem_withSlash_iff
    {bytes : List UInt8} {byte : UInt8} (notSlash : byte ≠ slash) :
    byte ∈ withSlash bytes ↔ byte ∈ bytes := by
  unfold withSlash
  split
  · rfl
  · simp [notSlash]

theorem zero_mem_join_iff
    {base path : Path} (relative : path.isAbsolute = false) :
    0 ∈ (base.join path).bytes ↔ 0 ∈ base.bytes ∨ 0 ∈ path.bytes := by
  rw [join_of_relative base relative, List.mem_append,
    mem_withSlash_iff (by decide)]

theorem length_entry_le (directory : Path) (name : EntryName) :
    (directory.entry name).bytes.length ≤
      directory.bytes.length + (longestName + 1) := by
  have opened :
      (withSlash directory.bytes).length ≤ directory.bytes.length + 1 := by
    unfold withSlash
    split <;> simp
  rw [entry, join_of_relative directory name.isAbsolute_eq_false,
    List.length_append, Nat.add_comm longestName, ← Nat.add_assoc]
  exact Nat.add_le_add opened name.short

end Path

namespace FileTree

variable {tree : FileTree}

/-- The path of an entry that is no link leads to the entry, unless it is too
long. -/
theorem locate_entry
    {directory : Path} {here : Location} {name : EntryName} {node : Node}
    (located : tree.locate directory = .ok here)
    (around : tree.node? here = some .directory)
    (present : tree.node? (name :: here) = some node)
    (notLink : ∀ target, node ≠ .link target)
    (short : (directory.entry name).bytes.length ≤ longestPath) :
    tree.locate (directory.entry name) = .ok (name :: here) := by
  obtain ⟨accepted, _⟩ := locate_eq_ok_iff.1 located
  obtain ⟨before, enough, leadsJoin⟩ := exists_leads_join_iff located
  have clean : 0 ∉ (directory.entry name).bytes := by
    rw [Path.entry, Path.zero_mem_join_iff name.isAbsolute_eq_false, not_or]
    exact ⟨accepted.1, name.noNul⟩
  have notEmpty : (directory.entry name).bytes ≠ [] := by
    rw [Path.entry, Path.join_of_relative _ name.isAbsolute_eq_false]
    exact List.append_ne_nil_of_right_ne_nil _ name.notEmpty
  refine
    locate_eq_ok_iff.2 ⟨⟨clean, notEmpty, short⟩, before, enough, ?_⟩
  refine
    (leadsJoin ⟨name.bytes⟩ name.isAbsolute_eq_false _ _).2 ⟨0, rfl, ?_⟩
  rw [name.steps_eq]
  exact .enter around present notLink (.arrived _)

/-- With fewer links than there are on the way a lookup is given up. -/
theorem Leads.resolve_of_lt
    {location target : Location} {steps : List Step} {count : Nat}
    (leads : tree.Leads location steps count target) :
    ∀ {links : Nat}, links < count →
      tree.resolve links location steps = .error .tooManyLinks := by
  induction leads with
  | arrived location =>
      intro links few
      exact (Nat.not_lt_zero links few).elim
  | stay directory _ inductionHypothesis =>
      intro links few
      rw [resolve_stay directory]
      exact inductionHypothesis few
  | up directory _ inductionHypothesis =>
      intro links few
      rw [resolve_up directory]
      exact inductionHypothesis few
  | enter directory entry notLink _ inductionHypothesis =>
      intro links few
      rw [resolve_enter directory entry notLink]
      exact inductionHypothesis few
  | follow directory entry _ inductionHypothesis =>
      intro links few
      cases links with
      | zero => simp only [resolve, advance, directory, entry]
      | succ fewer =>
          rw [resolve_follow directory entry]
          exact inductionHypothesis (Nat.lt_of_succ_lt_succ few)

/-- The limits of the operating system make no difference to a lookup: the path
is short, and a lookup that is given up after too many links leads nowhere. -/
structure WithinLimits (tree : FileTree) (path : Path) : Prop where
  short : path.bytes.length ≤ longestPath
  leadsNowhere :
    tree.locate path = .error .tooManyLinks →
      ∀ count target,
        ¬ tree.Leads (startOf path tree.workingDirectory) path.steps count
          target

theorem WithinLimits.of_locate_ne
    {path : Path} (short : path.bytes.length ≤ longestPath)
    (settled : tree.locate path ≠ .error .tooManyLinks) :
    tree.WithinLimits path :=
  ⟨short, fun given => absurd given settled⟩

theorem WithinLimits.of_locate
    {path : Path} {location : Location}
    (located : tree.locate path = .ok location) :
    tree.WithinLimits path := by
  obtain ⟨accepted, _⟩ := locate_eq_ok_iff.1 located
  refine .of_locate_ne accepted.2.2 ?_
  rw [located]
  nofun

theorem WithinLimits.locate_eq
    {path : Path} {target : Location} {count : Nat}
    (limits : tree.WithinLimits path) (clean : 0 ∉ path.bytes)
    (notEmpty : path.bytes ≠ [])
    (leads :
      tree.Leads (startOf path tree.workingDirectory) path.steps count
        target) :
    tree.locate path = .ok target := by
  have accepted : path.IsAccepted := ⟨clean, notEmpty, limits.short⟩
  by_cases enough : count ≤ mostLinks
  · exact locate_eq_ok_iff.2 ⟨accepted, count, enough, leads⟩
  · have given : tree.locate path = .error .tooManyLinks := by
      unfold locate
      rw [if_neg clean, if_neg notEmpty, if_neg (Nat.not_lt.2 limits.short)]
      exact leads.resolve_of_lt (Nat.lt_of_not_le enough)
    exact (limits.leadsNowhere given count target leads).elim

/-- Within the limits, a path below a directory leads to the same place however
the directory is spelled. -/
theorem find_join_of_find_join
    {first second path : Path} {home : Location} {found : Location × Node}
    (firstLocated : tree.locate first = .ok home)
    (secondLocated : tree.locate second = .ok home)
    (relative : path.isAbsolute = false)
    (limits : tree.WithinLimits (second.join path))
    (firstFound : tree.find (first.join path) = .ok found) :
    tree.find (second.join path) = .ok found := by
  obtain ⟨location, node⟩ := found
  obtain ⟨located, present⟩ := find_eq_ok_iff.1 firstFound
  obtain ⟨accepted, total, _, leads⟩ := locate_eq_ok_iff.1 located
  obtain ⟨secondAccepted, _⟩ := locate_eq_ok_iff.1 secondLocated
  obtain ⟨_, _, fromFirst⟩ := exists_leads_join_iff firstLocated
  obtain ⟨before, _, fromSecond⟩ := exists_leads_join_iff secondLocated
  obtain ⟨count, _, onward⟩ := (fromFirst path relative _ _).1 leads
  have clean : 0 ∉ (second.join path).bytes := by
    have pathClean := accepted.1
    rw [Path.zero_mem_join_iff relative, not_or] at pathClean ⊢
    exact ⟨secondAccepted.1, pathClean.2⟩
  have notEmpty : (second.join path).bytes ≠ [] := by
    obtain ⟨opening, _, opened⟩ :=
      Path.withSlash_of_ne_nil secondAccepted.2.1
    rw [Path.join_of_relative second relative, opened]
    simp
  have whole := (fromSecond path relative _ _).2 ⟨count, rfl, onward⟩
  exact find_eq_ok_iff.2 ⟨limits.locate_eq clean notEmpty whole, present⟩

end FileTree

end HeaderAudit
