import HeaderAudit.Proofs.Path.Components
import Mathlib.Data.List.Basic

namespace HeaderAudit

namespace Path

theorem join_of_absolute
    {path : Path} (base : Path) (absolute : path.isAbsolute = true) :
    base.join path = path := by
  simp [join, absolute]

/-- A text that something can be written behind: it is empty or ends in a
slash. -/
def withSlash (bytes : List UInt8) : List UInt8 :=
  if bytes = [] ∨ bytes.getLast? = some slash then
    bytes
  else
    bytes ++ [slash]

theorem join_of_relative
    {path : Path} (base : Path) (relative : path.isAbsolute = false) :
    base.join path = ⟨withSlash base.bytes ++ path.bytes⟩ := by
  unfold join withSlash
  rw [if_neg (by simp [relative])]
  split
  · rfl
  · simp

@[simp]
theorem withSlash_nil : withSlash [] = [] :=
  rfl

@[simp]
theorem withSlash_append_slash (before : List UInt8) :
    withSlash (before ++ [slash]) = before ++ [slash] := by
  simp [withSlash]

theorem withSlash_of_ne_nil
    {bytes : List UInt8} (notEmpty : bytes ≠ []) :
    ∃ before,
      (bytes = before ∨ bytes = before ++ [slash]) ∧
        withSlash bytes = before ++ [slash] := by
  by_cases closed : bytes.getLast? = some slash
  · obtain ⟨before, rfl⟩ := List.getLast?_eq_some_iff.1 closed
    exact ⟨before, Or.inr rfl, withSlash_append_slash before⟩
  · exact ⟨bytes, Or.inl rfl, by simp [withSlash, notEmpty, closed]⟩

theorem withSlash_append (left right : List UInt8) :
    withSlash (withSlash left ++ right) =
      withSlash left ++ withSlash right := by
  by_cases empty : right = []
  · subst empty
    rw [withSlash_nil, List.append_nil]
    by_cases leftEmpty : left = []
    · rw [leftEmpty, withSlash_nil, withSlash_nil]
    · obtain ⟨before, _, spelled⟩ := withSlash_of_ne_nil leftEmpty
      rw [spelled, withSlash_append_slash]
  · obtain ⟨before, byte, rfl⟩ :=
      (List.eq_nil_or_concat' right).resolve_left empty
    rw [← List.append_assoc]
    by_cases closed : byte = slash
    · simp [withSlash, closed]
    · simp [withSlash, closed]

theorem pieces_append_slash (before after : List UInt8) :
    (⟨before ++ slash :: after⟩ : Path).pieces =
      (⟨before⟩ : Path).pieces ++ (⟨after⟩ : Path).pieces :=
  List.splitOn_append_cons_self before after

theorem innerComponents_append_slash (before after : List UInt8) :
    (⟨before ++ slash :: after⟩ : Path).innerComponents =
      (⟨before⟩ : Path).innerComponents ++
        (⟨after⟩ : Path).innerComponents := by
  simp only [innerComponents, pieces_append_slash, List.filterMap_append]

theorem lead_append_slash {before : List UInt8} (after : List UInt8) :
    (⟨before ++ slash :: after⟩ : Path).lead =
      (⟨before ++ [slash]⟩ : Path).lead := by
  have samePiece :
      (⟨before ++ slash :: after⟩ : Path).pieces.head? =
        (⟨before ++ [slash]⟩ : Path).pieces.head? := by
    rw [pieces_append_slash, pieces_append_slash]
    obtain ⟨first, others, split⟩ :=
      List.exists_cons_of_ne_nil (List.splitOn_ne_nil slash before)
    simp [pieces, split]
  have sameStart :
      (⟨before ++ slash :: after⟩ : Path).isAbsolute =
        (⟨before ++ [slash]⟩ : Path).isAbsolute := by
    cases before <;> rfl
  simp only [lead, samePiece, sameStart]

theorem lead_append_slash_nil
    {before : List UInt8} (notEmpty : before ≠ []) :
    (⟨before ++ [slash]⟩ : Path).lead = (⟨before⟩ : Path).lead := by
  have samePiece :
      (⟨before ++ [slash]⟩ : Path).pieces.head? =
        (⟨before⟩ : Path).pieces.head? := by
    rw [pieces_append_slash]
    obtain ⟨first, others, split⟩ :=
      List.exists_cons_of_ne_nil (List.splitOn_ne_nil slash before)
    simp [pieces, split]
  have sameStart :
      (⟨before ++ [slash]⟩ : Path).isAbsolute =
        (⟨before⟩ : Path).isAbsolute := by
    obtain ⟨first, others, rfl⟩ := List.exists_cons_of_ne_nil notEmpty
    rfl
  simp only [lead, samePiece, sameStart]

/-- Joining appends the components of a relative path, less its dot. -/
theorem components_join
    {base path : Path} (notEmpty : base.bytes ≠ [])
    (relative : path.isAbsolute = false) :
    (base.join path).components = base.components ++ path.moves := by
  obtain ⟨before, spelled, opening⟩ := withSlash_of_ne_nil notEmpty
  rw [join_of_relative base relative, opening, List.append_assoc,
    List.singleton_append, moves_of_relative relative]
  simp only [components_eq, innerComponents_append_slash, lead_append_slash]
  have baseComponents :
      (⟨before ++ [slash]⟩ : Path).lead ++
          (⟨before⟩ : Path).innerComponents =
        base.lead ++ base.innerComponents := by
    rcases spelled with bytes | bytes
    · subst bytes
      rw [lead_append_slash_nil notEmpty]
    · have baseEq : base = ⟨before ++ [slash]⟩ := by
        cases base
        exact congrArg Path.mk bytes
      have lastEmpty : (⟨[]⟩ : Path).innerComponents = [] := by decide
      rw [baseEq, innerComponents_append_slash, lastEmpty, List.append_nil]
  rw [← List.append_assoc, baseComponents]

theorem moves_join
    {base path : Path} (relative : path.isAbsolute = false) :
    (base.join path).moves = base.moves ++ path.moves := by
  by_cases empty : base.bytes = []
  · have baseMoves : base.moves = [] := by
      cases base
      subst empty
      decide
    rw [join_of_relative base relative, empty, baseMoves]
    rfl
  · have kept : path.moves.filter (· ≠ .here) = path.moves := by
      simp [moves, List.filter_filter]
    rw [moves, components_join empty relative, List.filter_append, kept]
    rfl

theorem isAbsolute_join
    {base path : Path} (relative : path.isAbsolute = false) :
    (base.join path).isAbsolute = base.isAbsolute := by
  have notRoot : .root ∉ path.moves := by
    simp [root_mem_moves_iff, relative]
  rw [Bool.eq_iff_iff, ← root_mem_moves_iff, ← root_mem_moves_iff,
    moves_join relative]
  simp [notRoot]

theorem join_join
    {base middle path : Path}
    (middleRelative : middle.isAbsolute = false)
    (relative : path.isAbsolute = false) :
    (base.join middle).join path = base.join (middle.join path) := by
  have innerRelative : (middle.join path).isAbsolute = false := by
    rw [isAbsolute_join relative, middleRelative]
  rw [join_of_relative _ relative, join_of_relative base middleRelative,
    join_of_relative base innerRelative, join_of_relative middle relative,
    withSlash_append, List.append_assoc]

/-- The path of something below a base, taken relative to the base. -/
theorem relativeTo_join
    {base path : Path} (notEmpty : base.bytes ≠ [])
    (relative : path.isAbsolute = false) :
    base.relativeTo (base.join path) = path.normalForm := by
  have rest :
      base.components.isPrefixOf? (base.join path).components =
        some path.moves := by
    rw [List.isPrefixOf?_eq_some_iff_append_eq]
    exact (components_join notEmpty relative).symm
  rw [relativeTo, rest, Option.getD_some, normalForm_eq]

theorem components_ne_nil
    {path : Path} (notEmpty : path.bytes ≠ []) :
    path.components ≠ [] := by
  obtain ⟨bytes⟩ := path
  obtain ⟨first, rest, rfl⟩ := List.exists_cons_of_ne_nil notEmpty
  by_cases isSlash : first = slash
  · subst isSlash
    simp [components_eq, lead_slash_cons]
  · obtain ⟨piece, others, split⟩ :=
      List.exists_cons_of_ne_nil (List.splitOn_ne_nil slash rest)
    have piecesEq :
        (⟨first :: rest⟩ : Path).pieces = (first :: piece) :: others := by
      rw [pieces, List.splitOn_cons_eq_if_modifyHead, split]
      simp [isSlash]
    by_cases isDot : first :: piece = [dot]
    · have relative : (⟨first :: rest⟩ : Path).isAbsolute = false := by
        simpa [isAbsolute] using isSlash
      simp [components_eq, lead, relative, piecesEq, isDot]
    · have read : ∃ component,
          Component.ofPiece? (first :: piece) = some component := by
        unfold Component.ofPiece?
        rw [if_neg (by simp [isDot])]
        split <;> exact ⟨_, rfl⟩
      obtain ⟨component, read⟩ := read
      rw [components_eq, innerComponents, piecesEq,
        List.filterMap_cons_some read]
      simp

theorem isInner_of_mem_tail_components
    {path : Path} {component : Component}
    (member : component ∈ path.components.tail) :
    component.IsInner := by
  have inInner : component ∈ path.innerComponents := by
    rw [components_eq] at member
    unfold lead at member
    split at member
    · exact member
    · split at member
      · exact member
      · exact List.mem_of_mem_tail member
  exact isInner_of_mem_innerComponents inInner

theorem components_of_absolute
    {path : Path} (absolute : path.isAbsolute = true) :
    path.components = path.moves := by
  rw [moves_eq, components_eq, lead, if_pos absolute, if_pos absolute]

theorem isAbsolute_of_begins
    {base path : Path} (notEmpty : base.bytes ≠ [])
    (begins : base.components <+: path.components)
    (absolute : path.isAbsolute = true) :
    base.isAbsolute = true := by
  obtain ⟨first, others, split⟩ :=
    List.exists_cons_of_ne_nil (components_ne_nil notEmpty)
  have pathSplit : path.components = .root :: path.innerComponents := by
    rw [components_of_absolute absolute, moves_eq, if_pos absolute,
      List.singleton_append]
  rw [split, pathSplit, List.cons_prefix_cons] at begins
  rw [← root_mem_moves_iff, moves, split, begins.1]
  simp

/-- An absolute path that does not begin with the base stands for itself. -/
theorem relativeTo_of_apart
    {base path : Path} (absolute : path.isAbsolute = true)
    (apart : ¬ base.components <+: path.components) :
    base.relativeTo path = path.normalForm := by
  have noRest : base.components.isPrefixOf? path.components = none := by
    cases found : base.components.isPrefixOf? path.components with
    | none => rfl
    | some rest =>
        have split := List.isPrefixOf?_eq_some_iff_append_eq.1 found
        exact (apart ⟨rest, split⟩).elim
  rw [relativeTo, noRest, Option.getD_none, components_of_absolute absolute,
    normalForm_eq]

theorem exists_relativeTo_of_begins
    {base path : Path} (notEmpty : base.bytes ≠ [])
    (begins : base.components <+: path.components) :
    ∃ rest,
      path.components = base.components ++ rest ∧
        (∀ component ∈ rest, component.IsInner) ∧
          base.relativeTo path = ofComponents rest := by
  obtain ⟨rest, split⟩ := begins
  refine ⟨rest, split.symm, ?_, ?_⟩
  · intro component member
    obtain ⟨first, others, baseSplit⟩ :=
      List.exists_cons_of_ne_nil (components_ne_nil notEmpty)
    have inTail : component ∈ path.components.tail := by
      rw [← split, baseSplit]
      exact List.mem_append_right others member
    exact isInner_of_mem_tail_components inTail
  · rw [relativeTo, List.isPrefixOf?_eq_some_iff_append_eq.2 split,
      Option.getD_some]

theorem moves_join_normalForm (base path : Path) :
    (base.join path.normalForm).moves = (base.join path).moves := by
  have sameStart := path.isAbsolute_normalForm
  cases absolute : path.isAbsolute with
  | true =>
      rw [absolute] at sameStart
      rw [join_of_absolute base absolute, join_of_absolute base sameStart,
        moves_normalForm]
  | false =>
      rw [absolute] at sameStart
      rw [moves_join absolute, moves_join sameStart, moves_normalForm]

/-- Joined to the base again, the relative path has the moves of the path. -/
theorem moves_join_relativeTo
    {base path : Path} (notEmpty : base.bytes ≠ [])
    (reached :
      path.isAbsolute = true ∨ base.components <+: path.components) :
    (base.join (base.relativeTo path).normalForm).moves = path.moves := by
  by_cases begins : base.components <+: path.components
  · obtain ⟨rest, split, inner, relativeEq⟩ :=
      exists_relativeTo_of_begins notEmpty begins
    have restMoves : (ofComponents rest).normalForm.moves = rest := by
      rw [moves_normalForm, moves_ofComponents (Or.inl inner)]
    have relative : (ofComponents rest).normalForm.isAbsolute = false := by
      rw [← Bool.not_eq_true, ← root_mem_moves_iff, restMoves]
      intro member
      exact (inner .root member).ne_root rfl
    have kept : rest.filter (· ≠ .here) = rest :=
      List.filter_eq_self.2 fun component member => by
        simpa using (inner component member).ne_here
    rw [relativeEq, moves_join relative, restMoves, moves, moves, split,
      List.filter_append, kept]
  · have absolute := reached.resolve_right begins
    rw [relativeTo_of_apart absolute begins, normalForm_normalForm,
      moves_join_normalForm, join_of_absolute base absolute]

end Path

end HeaderAudit
