import HeaderAudit.Proofs.FileTree.Entries
import HeaderAudit.Proofs.Steps
import HeaderAudit.Walk

/-! `Discovers` says, without a walk, that names lead from a directory to a
file through entries that a walk goes on below. -/

namespace HeaderAudit

namespace FileTree

/-- The node that a directory holds under a name.  A link is not followed. -/
def entryNode? (tree : FileTree) (directory : Path) (name : EntryName) :
    Option Node :=
  match tree.locate directory with
  | .ok here => tree.node? (name :: here)
  | .error _ => none

/-- A walk goes on below the entry: it is a directory itself or, when links
are followed, a link that leads to one. -/
def Enters
    (tree : FileTree) (followLinks : Bool) (directory : Path)
    (name : EntryName) : Prop :=
  tree.entryNode? directory name = some .directory ∨
    followLinks = true ∧
      (∃ target, tree.entryNode? directory name = some (.link target)) ∧
        tree.isDirectory (directory.entry name) = true

/-- The names lead from a directory, through entries that a walk goes on
below, to a file that is not deeper than allowed. -/
structure Discovers
    (tree : FileTree) (followLinks : Bool) (maxDepth : Nat)
    (start : Path) (names : List EntryName) : Prop where
  notEmpty : names ≠ []
  shallow : names.length ≤ maxDepth
  entered :
    ∀ outer name inner, names = outer ++ name :: inner → inner ≠ [] →
      tree.Enters followLinks (start.below outer) name
  file : tree.isFile (start.below names) = true

variable {tree : FileTree} {followLinks : Bool}

theorem discovers_cons_iff
    {maxDepth : Nat} {start : Path} {name : EntryName}
    {rest : List EntryName} :
    tree.Discovers followLinks (maxDepth + 1) start (name :: rest) ↔
      (rest = [] ∧ tree.isFile (start.entry name) = true) ∨
        (tree.Enters followLinks start name ∧
          tree.Discovers followLinks maxDepth (start.entry name) rest) := by
  constructor
  · intro discovers
    by_cases last : rest = []
    · subst last
      exact Or.inl ⟨rfl, discovers.file⟩
    · refine Or.inr ⟨discovers.entered [] name rest rfl last, ?_⟩
      refine ⟨last, Nat.le_of_succ_le_succ discovers.shallow, ?_,
        discovers.file⟩
      intro outer tested inner split notLast
      apply discovers.entered (name :: outer) tested inner _ notLast
      rw [split, List.cons_append]
  · intro either
    rcases either with ⟨last, file⟩ | ⟨enters, discovers⟩
    · subst last
      refine ⟨List.cons_ne_nil name [], Nat.succ_le_succ (Nat.zero_le _),
        ?_, file⟩
      intro outer tested inner split notLast
      have lengths := congrArg List.length split
      have innerLength := List.length_pos_iff.2 notLast
      simp only [List.length_cons, List.length_nil, List.length_append]
        at lengths
      omega
    · refine ⟨List.cons_ne_nil name rest,
        Nat.succ_le_succ discovers.shallow, ?_, discovers.file⟩
      intro outer tested inner split notLast
      cases outer with
      | nil =>
          cases split
          exact enters
      | cons first others =>
          rw [List.cons_append] at split
          injection split with sameName restSplit
          subst sameName
          exact discovers.entered others tested inner restSplit notLast

theorem not_discovers_zero {start : Path} {names : List EntryName} :
    ¬ tree.Discovers followLinks 0 start names := by
  intro discovers
  exact discovers.notEmpty (List.length_eq_zero_iff.1 <|
    Nat.le_zero.1 discovers.shallow)

/-- A descent that is no fault goes on exactly below the entries that a walk
enters, and by the path of the entry. -/
theorem descent_eq_ok
    {ancestors : List Ancestor} {directory : Path} {here : Location}
    {name : EntryName} {entered : Option Ancestor}
    (located : tree.locate directory = .ok here)
    (descended :
      tree.descent followLinks ancestors (directory.entry name)
        (name :: here) = .ok entered) :
    (∃ location, entered = some ⟨directory.entry name, location⟩ ∧
        tree.Enters followLinks directory name) ∨
      (entered = none ∧ ¬ tree.Enters followLinks directory name) := by
  have entryNode :
      tree.entryNode? directory name = tree.node? (name :: here) := by
    simp only [entryNode?, located]
  unfold Enters
  rw [entryNode]
  unfold descent at descended
  split at descended
  · rename_i present
    cases descended
    exact Or.inl ⟨name :: here, rfl, Or.inl present⟩
  · rename_i target present
    cases followLinks with
    | false =>
        cases descended
        exact Or.inr ⟨rfl, by simp [present]⟩
    | true =>
        rw [if_pos rfl] at descended
        split at descended
        · cases descended
        · rename_i location found
          split at descended
          · cases descended
          · cases descended
            have leadsOn : tree.isDirectory (directory.entry name) = true :=
              isDirectory_iff.2 ⟨location, found⟩
            exact
              Or.inl
                ⟨location, rfl, Or.inr ⟨rfl, ⟨target, present⟩, leadsOn⟩⟩
        · rename_i reached notDirectory found
          cases descended
          refine Or.inr ⟨rfl, ?_⟩
          intro enters
          rcases enters with direct | ⟨_, _, leadsOn⟩
          · rw [present] at direct
            cases direct
          · obtain ⟨location, foundDirectory⟩ := isDirectory_iff.1 leadsOn
            rw [found] at foundDirectory
            cases foundDirectory
            exact notDirectory location rfl
  · rename_i notDirectory notLink
    cases descended
    refine Or.inr ⟨rfl, ?_⟩
    intro enters
    rcases enters with direct | ⟨_, ⟨target, link⟩, _⟩
    · exact notDirectory direct
    · exact notLink target link

/-- The files of one entry: its own path when that leads to a file, and the
files below it when the walk enters it. -/
theorem entryFiles_eq_ok
    {ancestors : List Ancestor}
    {below : Ancestor → Except WalkError (List Path)}
    {directory : Path} {here : Location} {name : EntryName}
    {files : List Path}
    (located : tree.locate directory = .ok here)
    (walked :
      tree.entryFiles followLinks ancestors below directory here name =
        .ok files) :
    ∃ inner,
      files =
          (if tree.isFile (directory.entry name) then
            [directory.entry name]
          else
            []) ++ inner ∧
        ((∃ location, tree.Enters followLinks directory name ∧
            below ⟨directory.entry name, location⟩ = .ok inner) ∨
          (¬ tree.Enters followLinks directory name ∧ inner = [])) := by
  unfold entryFiles at walked
  simp only at walked
  split at walked
  · cases walked
  · rename_i descended
    cases walked
    rcases descent_eq_ok located descended with
      ⟨_, impossible, _⟩ | ⟨_, notEntered⟩
    · cases impossible
    · exact ⟨[], (List.append_nil _).symm, Or.inr ⟨notEntered, rfl⟩⟩
  · rename_i entered descended
    rcases descent_eq_ok located descended with
      ⟨location, same, enters⟩ | ⟨impossible, _⟩
    · cases same
      split at walked
      · cases walked
      · rename_i inner foundBelow
        cases walked
        exact ⟨inner, rfl, Or.inl ⟨location, enters, foundBelow⟩⟩
    · cases impossible

theorem mem_entryFiles_iff
    {depth : Nat} {ancestors : List Ancestor}
    {below : Ancestor → Except WalkError (List Path)}
    {directory : Path} {here : Location} {name : EntryName}
    {files : List Path}
    (located : tree.locate directory = .ok here)
    (walked :
      tree.entryFiles followLinks ancestors below directory here name =
        .ok files)
    (belowFinds :
      ∀ entered inner, below entered = .ok inner →
        ∀ path, path ∈ inner ↔
          ∃ names, tree.Discovers followLinks depth entered.path names ∧
            path = entered.path.below names)
    (path : Path) :
    path ∈ files ↔
      ∃ rest,
        tree.Discovers followLinks (depth + 1) directory (name :: rest) ∧
          path = directory.below (name :: rest) := by
  obtain ⟨inner, filesEq, innerEq⟩ := entryFiles_eq_ok located walked
  rw [filesEq, List.mem_append]
  constructor
  · intro member
    rcases member with own | innerMember
    · split at own
      · rename_i file
        rw [List.mem_singleton.1 own]
        exact ⟨[], discovers_cons_iff.2 (Or.inl ⟨rfl, file⟩), rfl⟩
      · cases own
    · rcases innerEq with ⟨location, enters, foundBelow⟩ | ⟨_, rfl⟩
      · obtain ⟨rest, discovers, same⟩ :=
          (belowFinds _ inner foundBelow path).1 innerMember
        exact
          ⟨rest, discovers_cons_iff.2 (Or.inr ⟨enters, discovers⟩), same⟩
      · cases innerMember
  · intro discovered
    obtain ⟨rest, discovers, same⟩ := discovered
    rcases discovers_cons_iff.1 discovers with
      ⟨rfl, file⟩ | ⟨enters, discoversRest⟩
    · left
      rw [if_pos file, same]
      exact List.mem_singleton_self _
    · right
      rcases innerEq with ⟨location, _, foundBelow⟩ | ⟨notEntered, _⟩
      · exact
          (belowFinds _ inner foundBelow path).2 ⟨rest, discoversRest, same⟩
      · exact (notEntered enters).elim

theorem mem_listing_of_discovers
    {maxDepth : Nat} {start : Path} {here : Location} {name : EntryName}
    {rest : List EntryName}
    (located : tree.locate start = .ok here)
    (discovers :
      tree.Discovers followLinks (maxDepth + 1) start (name :: rest)) :
    name ∈ tree.listing here := by
  rw [mem_listing_iff]
  rcases discovers_cons_iff.1 discovers with ⟨_, file⟩ | ⟨enters, _⟩
  · obtain ⟨location, content, found⟩ := isFile_iff.1 file
    exact isSome_node?_of_find_entry located found
  · have entryNode :
        tree.entryNode? start name = tree.node? (name :: here) := by
      simp only [entryNode?, located]
    rw [← entryNode]
    rcases enters with direct | ⟨_, ⟨target, link⟩, _⟩
    · simp [direct]
    · simp [link]

theorem mem_filesBelow_iff (depth : Nat) :
    ∀ {directory : Ancestor} {outer : List Ancestor} {files : List Path},
      tree.filesBelow followLinks depth directory outer = .ok files →
        ∀ path, path ∈ files ↔
          ∃ names, tree.Discovers followLinks depth directory.path names ∧
            path = directory.path.below names := by
  induction depth with
  | zero =>
      intro directory outer files walked path
      cases walked
      constructor
      · intro member
        cases member
      · intro discovered
        obtain ⟨names, discovers, _⟩ := discovered
        exact (not_discovers_zero discovers).elim
  | succ depth inductionHypothesis =>
      intro directory outer files walked path
      unfold filesBelow at walked
      split at walked
      · cases walked
      · rename_i here opened
        have located := (openDirectory_eq_ok_iff.1 opened).1
        obtain ⟨parts, ran, rfl⟩ := map_eq_ok_iff.1 walked
        rw [List.mem_flatten]
        constructor
        · intro member
          obtain ⟨part, partMember, pathMember⟩ := member
          obtain ⟨name, _, partRan⟩ :=
            (mem_of_mapM_eq_ok ran part).1 partMember
          obtain ⟨rest, discovers, same⟩ :=
            (mem_entryFiles_iff located partRan
              (fun _ _ => inductionHypothesis) path).1 pathMember
          exact ⟨name :: rest, discovers, same⟩
        · intro discovered
          obtain ⟨names, discovers, same⟩ := discovered
          cases names with
          | nil => exact (discovers.notEmpty rfl).elim
          | cons name rest =>
              obtain ⟨part, partMember, partRan⟩ :=
                exists_ok_of_mapM_eq_ok ran name
                  (mem_listing_of_discovers located discovers)
              refine ⟨part, partMember, ?_⟩
              exact
                (mem_entryFiles_iff located partRan
                  (fun _ _ => inductionHypothesis) path).2
                  ⟨rest, discovers, same⟩

/-- A walk that comes to its end finds what names discover from its start. -/
theorem mem_walk_iff
    {maxDepth : Nat} {start : Path} {files : List Path}
    (walked : tree.walk followLinks maxDepth start = .ok files)
    (path : Path) :
    path ∈ files ↔
      ∃ names, tree.Discovers followLinks maxDepth start names ∧
        path = start.below names := by
  unfold walk at walked
  split at walked
  · cases walked
  · exact mem_filesBelow_iff maxDepth walked path

end FileTree

end HeaderAudit
