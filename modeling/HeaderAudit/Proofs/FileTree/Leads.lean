import HeaderAudit.FileTree.Lookup

/-! `Leads` says where steps lead and how many links are followed on the way.
It is a function of the steps and composes over appended steps, and a bounded
lookup succeeds when it holds with at most that many links. -/

namespace HeaderAudit

/-- A lookup does not refuse the path for its spelling alone. -/
def Path.IsAccepted (path : Path) : Prop :=
  0 ∉ path.bytes ∧ path.bytes ≠ [] ∧ path.bytes.length ≤ longestPath

namespace FileTree

/-- From a location, the steps lead to a target, and this many links are
followed on the way. -/
inductive Leads (tree : FileTree) :
    Location → List Step → Nat → Location → Prop
  | arrived (location : Location) :
      Leads tree location [] 0 location
  | stay {location target : Location} {rest : List Step} {count : Nat} :
      tree.node? location = some .directory →
      Leads tree location rest count target →
      Leads tree location (.stay :: rest) count target
  | up {location target : Location} {rest : List Step} {count : Nat} :
      tree.node? location = some .directory →
      Leads tree location.tail rest count target →
      Leads tree location (.up :: rest) count target
  | enter {location target : Location} {name : EntryName} {node : Node}
      {rest : List Step} {count : Nat} :
      tree.node? location = some .directory →
      tree.node? (name :: location) = some node →
      (∀ path, node ≠ .link path) →
      Leads tree (name :: location) rest count target →
      Leads tree location (.enter name :: rest) count target
  | follow {location target : Location} {name : EntryName} {path : Path}
      {rest : List Step} {count : Nat} :
      tree.node? location = some .directory →
      tree.node? (name :: location) = some (.link path) →
      Leads tree (startOf path location) (path.steps ++ rest) count target →
      Leads tree location (.enter name :: rest) (count + 1) target

variable {tree : FileTree}

/-! ## The relation and the bounded lookup -/

theorem resolve_nil (links : Nat) (location : Location) :
    tree.resolve links location [] = .ok location := by
  cases links <;> rfl

theorem resolve_stay
    {location : Location} (directory : tree.node? location = some .directory)
    (links : Nat) (rest : List Step) :
    tree.resolve links location (.stay :: rest) =
      tree.resolve links location rest := by
  cases links <;> simp only [resolve, advance, directory]

theorem resolve_up
    {location : Location} (directory : tree.node? location = some .directory)
    (links : Nat) (rest : List Step) :
    tree.resolve links location (.up :: rest) =
      tree.resolve links location.tail rest := by
  cases links <;> simp only [resolve, advance, directory]

theorem resolve_enter
    {location : Location} {name : EntryName} {node : Node}
    (directory : tree.node? location = some .directory)
    (entry : tree.node? (name :: location) = some node)
    (notLink : ∀ path, node ≠ .link path)
    (links : Nat) (rest : List Step) :
    tree.resolve links location (.enter name :: rest) =
      tree.resolve links (name :: location) rest := by
  cases node with
  | link path => exact (notLink path rfl).elim
  | directory => cases links <;> simp only [resolve, advance, directory, entry]
  | file content =>
      cases links <;> simp only [resolve, advance, directory, entry]
  | socket => cases links <;> simp only [resolve, advance, directory, entry]

theorem resolve_follow
    {location : Location} {name : EntryName} {path : Path}
    (directory : tree.node? location = some .directory)
    (entry : tree.node? (name :: location) = some (.link path))
    (links : Nat) (rest : List Step) :
    tree.resolve (links + 1) location (.enter name :: rest) =
      tree.resolve links (startOf path location) (path.steps ++ rest) := by
  simp only [resolve, advance, directory, entry]

theorem Leads.resolve_eq
    {location target : Location} {steps : List Step} {count : Nat}
    (leads : tree.Leads location steps count target) :
    ∀ {links : Nat}, count ≤ links →
      tree.resolve links location steps = .ok target := by
  induction leads with
  | arrived location =>
      intro links _
      exact resolve_nil links location
  | stay directory _ inductionHypothesis =>
      intro links enough
      rw [resolve_stay directory]
      exact inductionHypothesis enough
  | up directory _ inductionHypothesis =>
      intro links enough
      rw [resolve_up directory]
      exact inductionHypothesis enough
  | enter directory entry notLink _ inductionHypothesis =>
      intro links enough
      rw [resolve_enter directory entry notLink]
      exact inductionHypothesis enough
  | follow directory entry _ inductionHypothesis =>
      intro links enough
      cases links with
      | zero => exact (Nat.not_succ_le_zero _ enough).elim
      | succ fewer =>
          rw [resolve_follow directory entry]
          exact inductionHypothesis (Nat.le_of_succ_le_succ enough)

/-- Steps that are taken until a link is met lead where the redirected lookup
says, with one more link. -/
theorem exists_leads_of_advance
    {redirect : Location → List Step → Except LookupError Location}
    {links : Nat}
    (redirected :
      ∀ {location target : Location} {steps : List Step},
        redirect location steps = .ok target →
          ∃ count < links, tree.Leads location steps count target) :
    ∀ {steps : List Step} {location target : Location},
      tree.advance redirect location steps = .ok target →
        ∃ count ≤ links, tree.Leads location steps count target := by
  intro steps
  induction steps with
  | nil =>
      intro location target found
      cases found
      exact ⟨0, Nat.zero_le links, .arrived location⟩
  | cons step rest inductionHypothesis =>
      intro location target found
      unfold advance at found
      split at found
      · rename_i directory
        split at found
        · obtain ⟨count, enough, leads⟩ := inductionHypothesis found
          exact ⟨count, enough, .stay directory leads⟩
        · obtain ⟨count, enough, leads⟩ := inductionHypothesis found
          exact ⟨count, enough, .up directory leads⟩
        · cases found
        · split at found
          · rename_i entry
            obtain ⟨count, enough, leads⟩ := redirected found
            exact ⟨count + 1, enough, .follow directory entry leads⟩
          · rename_i notLink entry
            obtain ⟨count, enough, leads⟩ := inductionHypothesis found
            exact
              ⟨count, enough,
                .enter directory entry (fun path => notLink path) leads⟩
          · cases found
      · cases found
      · cases found

theorem exists_leads_of_resolve (links : Nat) :
    ∀ {steps : List Step} {location target : Location},
      tree.resolve links location steps = .ok target →
        ∃ count ≤ links, tree.Leads location steps count target := by
  induction links with
  | zero =>
      intro steps location target found
      refine exists_leads_of_advance ?_ found
      intro location target steps impossible
      cases impossible
  | succ links inductionHypothesis =>
      intro steps location target found
      refine exists_leads_of_advance ?_ found
      intro location target steps redirected
      obtain ⟨count, enough, leads⟩ := inductionHypothesis redirected
      exact ⟨count, Nat.lt_succ_of_le enough, leads⟩

/-- A bounded lookup succeeds exactly when the steps lead somewhere with at
most that many links. -/
theorem resolve_eq_ok_iff
    {links : Nat} {location target : Location} {steps : List Step} :
    tree.resolve links location steps = .ok target ↔
      ∃ count ≤ links, tree.Leads location steps count target := by
  constructor
  · exact exists_leads_of_resolve links
  · rintro ⟨count, enough, leads⟩
    exact leads.resolve_eq enough

/-! ## Determinism and composition -/

namespace Leads

theorem unique
    {location first second : Location} {steps : List Step}
    {firstCount secondCount : Nat}
    (left : tree.Leads location steps firstCount first)
    (right : tree.Leads location steps secondCount second) :
    first = second ∧ firstCount = secondCount := by
  induction left generalizing second secondCount with
  | arrived location =>
      cases right
      exact ⟨rfl, rfl⟩
  | stay _ _ inductionHypothesis =>
      cases right with
      | stay _ rest => exact inductionHypothesis rest
  | up _ _ inductionHypothesis =>
      cases right with
      | up _ rest => exact inductionHypothesis rest
  | enter _ entry notLink _ inductionHypothesis =>
      cases right with
      | enter _ _ _ rest => exact inductionHypothesis rest
      | follow _ link _ =>
          rw [entry] at link
          cases link
          exact (notLink _ rfl).elim
  | follow _ entry _ inductionHypothesis =>
      cases right with
      | enter _ other notLink _ =>
          rw [entry] at other
          cases other
          exact (notLink _ rfl).elim
      | follow _ link rest =>
          rw [entry] at link
          cases link
          obtain ⟨sameTarget, sameCount⟩ := inductionHypothesis rest
          exact ⟨sameTarget, congrArg (· + 1) sameCount⟩

theorem append
    {location middle target : Location} {before after : List Step}
    {beforeCount afterCount : Nat}
    (first : tree.Leads location before beforeCount middle)
    (second : tree.Leads middle after afterCount target) :
    tree.Leads location (before ++ after) (beforeCount + afterCount)
      target := by
  induction first with
  | arrived location => simpa using second
  | stay directory _ inductionHypothesis =>
      exact .stay directory (inductionHypothesis second)
  | up directory _ inductionHypothesis =>
      exact .up directory (inductionHypothesis second)
  | enter directory entry notLink _ inductionHypothesis =>
      exact .enter directory entry notLink (inductionHypothesis second)
  | follow directory entry _ inductionHypothesis =>
      have rest := inductionHypothesis second
      rw [List.append_assoc] at rest
      rw [Nat.add_right_comm]
      exact .follow directory entry rest

/-- A lookup of two lists of steps passes through where the first one
leads. -/
theorem exists_middle
    {location target : Location} {before after : List Step} {count : Nat}
    (leads : tree.Leads location (before ++ after) count target) :
    ∃ middle beforeCount afterCount,
      tree.Leads location before beforeCount middle ∧
        tree.Leads middle after afterCount target ∧
          count = beforeCount + afterCount := by
  generalize split : before ++ after = steps at leads
  induction leads generalizing before with
  | arrived location =>
      obtain ⟨rfl, rfl⟩ := List.append_eq_nil_iff.1 split
      exact ⟨location, 0, 0, .arrived location, .arrived location, rfl⟩
  | @stay location target rest count directory tail inductionHypothesis =>
      rcases List.append_eq_cons_iff.1 split with
        ⟨rfl, rfl⟩ | ⟨others, rfl, restSplit⟩
      · exact
          ⟨location, 0, count, .arrived location, .stay directory tail,
            (Nat.zero_add count).symm⟩
      · obtain ⟨middle, first, second, left, right, sum⟩ :=
          inductionHypothesis restSplit.symm
        exact ⟨middle, first, second, .stay directory left, right, sum⟩
  | @up location target rest count directory tail inductionHypothesis =>
      rcases List.append_eq_cons_iff.1 split with
        ⟨rfl, rfl⟩ | ⟨others, rfl, restSplit⟩
      · exact
          ⟨location, 0, count, .arrived location, .up directory tail,
            (Nat.zero_add count).symm⟩
      · obtain ⟨middle, first, second, left, right, sum⟩ :=
          inductionHypothesis restSplit.symm
        exact ⟨middle, first, second, .up directory left, right, sum⟩
  | @enter location target name node rest count directory entry notLink tail
      inductionHypothesis =>
      rcases List.append_eq_cons_iff.1 split with
        ⟨rfl, rfl⟩ | ⟨others, rfl, restSplit⟩
      · exact
          ⟨location, 0, count, .arrived location,
            .enter directory entry notLink tail, (Nat.zero_add count).symm⟩
      · obtain ⟨middle, first, second, left, right, sum⟩ :=
          inductionHypothesis restSplit.symm
        exact
          ⟨middle, first, second, .enter directory entry notLink left, right,
            sum⟩
  | @follow location target name path rest count directory entry tail
      inductionHypothesis =>
      rcases List.append_eq_cons_iff.1 split with
        ⟨rfl, rfl⟩ | ⟨others, rfl, restSplit⟩
      · exact
          ⟨location, 0, count + 1, .arrived location,
            .follow directory entry tail, (Nat.zero_add _).symm⟩
      · -- The steps of the link come before what is left of the first list.
        have rejoined : (path.steps ++ others) ++ after = path.steps ++ rest := by
          rw [restSplit, List.append_assoc]
        obtain ⟨middle, first, second, left, right, sum⟩ :=
          inductionHypothesis rejoined
        exact
          ⟨middle, first + 1, second, .follow directory entry left, right,
            by omega⟩

theorem directory_of_cons
    {location target : Location} {step : Step} {rest : List Step}
    {count : Nat}
    (leads : tree.Leads location (step :: rest) count target) :
    tree.node? location = some .directory := by
  cases leads <;> assumption

end Leads

/-! ## Looking a path up -/

theorem locate_eq_ok_iff {path : Path} {location : Location} :
    tree.locate path = .ok location ↔
      path.IsAccepted ∧
        ∃ count ≤ mostLinks,
          tree.Leads (startOf path tree.workingDirectory) path.steps count
            location := by
  rw [← resolve_eq_ok_iff]
  unfold locate Path.IsAccepted
  split
  · rename_i nul
    simp [nul]
  · split
    · rename_i empty
      simp [empty]
    · split
      · rename_i long
        simp [Nat.not_le.2 long]
      · rename_i noNul notEmpty short
        simp [noNul, notEmpty, Nat.not_lt.1 short]

theorem find_eq_ok_iff {path : Path} {location : Location} {node : Node} :
    tree.find path = .ok (location, node) ↔
      tree.locate path = .ok location ∧
        tree.node? location = some node := by
  constructor
  · intro found
    unfold find at found
    split at found
    · cases found
    · rename_i reached located
      split at found
      · rename_i present
        cases found
        exact ⟨located, present⟩
      · cases found
  · intro both
    simp only [find, both.1, both.2]

theorem isDirectory_iff {path : Path} :
    tree.isDirectory path = true ↔
      ∃ location, tree.find path = .ok (location, .directory) := by
  unfold isDirectory
  split
  · rename_i location found
    simp [found]
  · rename_i notDirectory
    simp only [Bool.false_eq_true, false_iff, not_exists]
    exact notDirectory

theorem isFile_iff {path : Path} :
    tree.isFile path = true ↔
      ∃ location content, tree.find path = .ok (location, .file content) := by
  unfold isFile
  split
  · rename_i location content found
    simp [found]
  · rename_i notFile
    simp only [Bool.false_eq_true, false_iff, not_exists]
    exact notFile

/-- A directory can be listed where its path leads, unless that is
unreadable. -/
theorem openDirectory_eq_ok_iff {path : Path} {location : Location} :
    tree.openDirectory path = .ok location ↔
      tree.locate path = .ok location ∧ location ∉ tree.unreadable := by
  unfold openDirectory
  constructor
  · intro opened
    split at opened
    · cases opened
    · rename_i reached located
      split at opened
      · cases opened
      · rename_i permitted
        cases opened
        exact ⟨located, permitted⟩
  · intro both
    simp only [both.1, if_neg both.2]

/-- A file that a path leads to is read, unless it is unreadable. -/
theorem read_of_find_file
    {path : Path} {location : Location} {content : List UInt8}
    (found : tree.find path = .ok (location, .file content)) :
    tree.read path =
      if location ∈ tree.unreadable then .error .denied else .ok content := by
  simp only [read, found]

theorem read_eq_ok_iff {path : Path} {content : List UInt8} :
    tree.read path = .ok content ↔
      ∃ location,
        tree.find path = .ok (location, .file content) ∧
          location ∉ tree.unreadable := by
  constructor
  · intro obtained
    unfold read at obtained
    split at obtained
    · cases obtained
    · rename_i location node found
      split at obtained
      · cases obtained
      · rename_i permitted
        cases node with
        | file bytes =>
            cases obtained
            exact ⟨location, found, permitted⟩
        | directory => cases obtained
        | socket => cases obtained
        | link target => cases obtained
  · intro parts
    obtain ⟨location, found, permitted⟩ := parts
    rw [read_of_find_file found, if_neg permitted]

end FileTree

end HeaderAudit
