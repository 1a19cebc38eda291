import HeaderAudit.FileTree.Edit
import HeaderAudit.Proofs.FileTree.Spelling

/-! Below any directory the normal form leads to the file that the path leads
to, also when the path steps up from behind a link. -/

namespace HeaderAudit

namespace Component

/-- The path of a single component. -/
def path : Component → Path
  | .root => ⟨[slash]⟩
  | component => ⟨component.piece⟩

theorem IsInner.path_eq {component : Component} (inner : component.IsInner) :
    component.path = ⟨component.piece⟩ := by
  cases component with
  | root => exact inner.elim
  | here => rfl
  | up => rfl
  | name bytes => rfl

end Component

namespace Path

/-- The path made by joining components to a path, one after the other. -/
def joinAll (base : Path) (components : List Component) : Path :=
  components.foldl (fun joined component => joined.join component.path) base

/-- A component other than the root is written behind the slash of the path
that it is joined to. -/
theorem join_path_of_inner
    (base : Path) {component : Component} (inner : component.IsInner) :
    base.join component.path =
      ⟨withSlash base.bytes ++ component.piece⟩ := by
  have relative : (⟨component.piece⟩ : Path).isAbsolute = false := by
    rw [isAbsolute, beq_eq_false_iff_ne]
    intro first
    exact inner.slash_notMem_piece (List.mem_of_mem_head? first)
  rw [inner.path_eq, join_of_relative base relative]

theorem withSlash_piece
    {component : Component} (inner : component.IsInner) :
    withSlash component.piece = component.piece ++ [slash] := by
  have notClosed : component.piece.getLast? ≠ some slash := fun last =>
    inner.slash_notMem_piece (List.mem_of_getLast? last)
  rw [withSlash, if_neg (not_or.2 ⟨inner.piece_ne_nil, notClosed⟩)]

/-- Joined to a path, inner components stand behind its slash with single
slashes between them. -/
theorem bytes_joinAll_of_inner
    {components : List Component} :
    ∀ (base : Path), components ≠ [] →
      (∀ component ∈ components, component.IsInner) →
        (base.joinAll components).bytes =
          withSlash base.bytes ++
            [slash].intercalate (components.map Component.piece) := by
  induction components with
  | nil =>
      intro base notEmpty _
      exact absurd rfl notEmpty
  | cons first others inductionHypothesis =>
      intro base _ inner
      obtain ⟨firstInner, othersInner⟩ := List.forall_mem_cons.1 inner
      have joined := join_path_of_inner base firstInner
      by_cases empty : others = []
      · subst empty
        rw [List.map_singleton, List.intercalate_singleton]
        exact congrArg Path.bytes joined
      · -- The others are joined to a path that the first one has closed.
        have closed :
            withSlash (base.join first.path).bytes =
              withSlash base.bytes ++ (first.piece ++ [slash]) := by
          rw [joined, withSlash_append, withSlash_piece firstInner]
        have more : others.map Component.piece ≠ [] := by
          simpa using empty
        rw [List.map_cons, List.intercalate_cons_of_ne_nil more,
          ← List.append_assoc, ← closed]
        exact inductionHypothesis (base.join first.path) empty othersInner

/-- Plain components, joined to nothing, make the path that spells them. -/
theorem joinAll_eq_ofComponents
    {components : List Component} (plain : Component.ArePlain components) :
    (⟨[]⟩ : Path).joinAll components = ofComponents components := by
  rcases plain with inner | ⟨rest, rfl, inner⟩
  · by_cases empty : components = []
    · rw [empty]
      rfl
    · have joined := bytes_joinAll_of_inner ⟨[]⟩ empty inner
      rw [withSlash_nil, List.nil_append,
        ← bytes_ofComponents_of_inner inner] at joined
      exact congrArg Path.mk joined
  · -- The root replaces the empty path; the others are joined to it.
    change (⟨[slash]⟩ : Path).joinAll rest = _
    rw [ofComponents_root_of_inner inner]
    by_cases empty : rest = []
    · rw [empty]
      rfl
    · have joined := bytes_joinAll_of_inner ⟨[slash]⟩ empty inner
      rw [← bytes_ofComponents_of_inner inner] at joined
      exact congrArg Path.mk joined

/-- Single slashes stand between the pieces of plain components.  The root
alone is the slash behind it. -/
theorem bytes_ofComponents_of_arePlain
    {components : List Component} (plain : Component.ArePlain components) :
    (ofComponents components).bytes =
      if components = [.root] then [slash]
      else [slash].intercalate (components.map Component.piece) := by
  rcases plain with inner | ⟨rest, rfl, inner⟩
  · have notRoot : components ≠ [.root] := by
      rintro rfl
      exact (inner .root List.mem_cons_self).ne_root rfl
    rw [if_neg notRoot, bytes_ofComponents_of_inner inner]
  · by_cases empty : rest = []
    · subst empty
      rfl
    · have more : rest.map Component.piece ≠ [] := by
        simpa using empty
      rw [ofComponents_root_of_inner inner, bytes_ofComponents_of_inner inner,
        if_neg (by simpa using empty), List.map_cons,
        List.intercalate_cons_of_ne_nil more]
      rfl

end Path

namespace FileTree

/-- Below any directory a normal form leads to the file that the path leads
to. -/
theorem find_join_normalForm
    {tree : FileTree} {base path : Path} {location : Location}
    {content : List UInt8} (there : tree.isDirectory base = true)
    (found : tree.find (base.join path) = .ok (location, .file content)) :
    tree.find (base.join path.normalForm) =
      .ok (location, .file content) := by
  obtain ⟨located, _⟩ := find_eq_ok_iff.1 found
  obtain ⟨accepted, _⟩ := locate_eq_ok_iff.1 located
  have short : (base.join path.normalForm).bytes.length ≤ longestPath :=
    Nat.le_trans (Path.length_join_normalForm_le base path) accepted.2.2
  exact
    find_join_of_file there found (Path.moves_join_normalForm base path) short

end FileTree

/-- The normal form of a path has its components but no dot, joined by single
slashes.  It stands for all paths with these components, and below any
directory it leads to the same file. -/
theorem Path.normalForm_canonical (path : Path) :
    .here ∉ path.normalForm.components ∧
      path.normalForm.components = path.components.filter (· ≠ .here) ∧
      path.normalForm =
        (⟨[]⟩ : Path).joinAll (path.components.filter (· ≠ .here)) ∧
      path.normalForm.bytes =
        (if path.normalForm.components = [.root] then [slash]
        else
          [slash].intercalate
            (path.normalForm.components.map Component.piece)) ∧
      path.normalForm.normalForm = path.normalForm ∧
      (∀ other : Path,
        path.normalForm.bytes = other.normalForm.bytes ↔
          path.components.filter (· ≠ .here) =
            other.components.filter (· ≠ .here)) ∧
      ∀ (tree : FileTree) (base : Path), tree.isDirectory base = true →
        ∀ location content,
          tree.find (base.join path) = .ok (location, .file content) →
            tree.find (base.join path.normalForm) =
              .ok (location, .file content) := by
  have plain := path.moves_arePlain
  refine
    ⟨?_, path.components_normalForm, ?_, ?_, path.normalForm_normalForm, ?_,
      ?_⟩
  · rw [components_normalForm]
    simp [moves]
  · exact (joinAll_eq_ofComponents plain).symm
  · rw [components_normalForm]
    exact bytes_ofComponents_of_arePlain plain
  · intro other
    rw [← Path.mk.injEq]
    exact normalForm_eq_iff
  · intro tree base there location content found
    exact FileTree.find_join_normalForm there found

/-- A link to a directory that stands beside a file. -/
def FileTree.steppedTree : FileTree :=
  FileTree.empty.editAll
    [.file (Path.ofString "lib/a.cpp") [0x23],
      .directory (Path.ofString "lib/gen"),
      .link (Path.ofString "app/deep") (Path.ofString "../lib/gen")]

/-- The step up leaves the directory that the link leads to, in either
spelling. -/
theorem FileTree.steppedTree_find_normalForm :
    steppedTree.isDirectory (Path.ofString "app/.") = true ∧
      (Path.ofString "./deep//.././a.cpp").normalForm =
        Path.ofString "deep/../a.cpp" ∧
      ∃ location content,
        steppedTree.find
            ((Path.ofString "app/.").join
              (Path.ofString "./deep//.././a.cpp")) =
          .ok (location, .file content) ∧
        steppedTree.find
            ((Path.ofString "app/.").join (Path.ofString "deep/../a.cpp")) =
          .ok (location, .file content) := by
  have there : steppedTree.isDirectory (Path.ofString "app/.") = true := by
    decide +kernel
  have isFile :
      steppedTree.isFile
          ((Path.ofString "app/.").join
            (Path.ofString "./deep//.././a.cpp")) = true := by
    decide +kernel
  have normal :
      (Path.ofString "./deep//.././a.cpp").normalForm =
        Path.ofString "deep/../a.cpp" := by
    decide +kernel
  obtain ⟨location, content, found⟩ := isFile_iff.1 isFile
  obtain ⟨_, _, _, _, _, _, leads⟩ :=
    Path.normalForm_canonical (Path.ofString "./deep//.././a.cpp")
  have sameFile := leads steppedTree _ there location content found
  rw [normal] at sameFile
  exact ⟨there, normal, location, content, found, sameFile⟩

end HeaderAudit
