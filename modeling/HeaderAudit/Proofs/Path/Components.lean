import HeaderAudit.Path.Basic

/-! The components of a path other than the dot are its moves. A list of
components that can be moves is spelled by one path, and from this follow the
laws of the normal form. -/

namespace HeaderAudit

namespace Component

/-- A component that can stand anywhere but at the beginning of a path. -/
def IsInner : Component → Prop
  | .up => True
  | .name bytes =>
      bytes ≠ [] ∧ bytes ≠ [dot] ∧ bytes ≠ [dot, dot] ∧ slash ∉ bytes
  | _ => False

/-- A list of components without dots, such that only the first one can be the
root. -/
def ArePlain (components : List Component) : Prop :=
  (∀ component ∈ components, component.IsInner) ∨
    ∃ rest, components = .root :: rest ∧
      ∀ component ∈ rest, component.IsInner

theorem IsInner.ne_here
    {component : Component} (inner : component.IsInner) :
    component ≠ .here := by
  rintro rfl
  exact inner

theorem IsInner.ne_root
    {component : Component} (inner : component.IsInner) :
    component ≠ .root := by
  rintro rfl
  exact inner

theorem IsInner.slash_notMem_piece
    {component : Component} (inner : component.IsInner) :
    slash ∉ component.piece := by
  cases component with
  | name bytes => exact inner.2.2.2
  | up => decide
  | root => exact inner.elim
  | here => exact inner.elim

theorem IsInner.piece_ne_nil
    {component : Component} (inner : component.IsInner) :
    component.piece ≠ [] := by
  cases component with
  | name bytes => exact inner.1
  | up => decide
  | root => exact inner.elim
  | here => exact inner.elim

theorem IsInner.piece_ne_dot
    {component : Component} (inner : component.IsInner) :
    component.piece ≠ [dot] := by
  cases component with
  | name bytes => exact inner.2.1
  | up => decide
  | root => exact inner.elim
  | here => exact inner.elim

theorem IsInner.ofPiece?_piece
    {component : Component} (inner : component.IsInner) :
    ofPiece? component.piece = some component := by
  cases component with
  | name bytes =>
      obtain ⟨notEmpty, notDot, notDots, _⟩ := inner
      simp [ofPiece?, piece, notEmpty, notDot, notDots]
  | up => decide
  | root => exact inner.elim
  | here => exact inner.elim

theorem isInner_of_ofPiece?
    {piece : List UInt8} {component : Component}
    (noSlash : slash ∉ piece) (read : ofPiece? piece = some component) :
    component.IsInner := by
  unfold ofPiece? at read
  split at read
  · cases read
  · rename_i notStay
    obtain ⟨notEmpty, notDot⟩ := not_or.1 notStay
    split at read
    · cases read
      trivial
    · rename_i notUp
      cases read
      exact ⟨notEmpty, notDot, notUp, noSlash⟩

theorem piece_of_ofPiece?
    {piece : List UInt8} {component : Component}
    (read : ofPiece? piece = some component) :
    component.piece = piece := by
  unfold ofPiece? at read
  split at read
  · cases read
  · split at read
    · cases read
      symm
      assumption
    · cases read
      rfl

theorem filterMap_ofPiece?_map_piece
    {components : List Component}
    (inner : ∀ component ∈ components, component.IsInner) :
    (components.map piece).filterMap ofPiece? = components := by
  induction components with
  | nil => rfl
  | cons head tail inductionHypothesis =>
      have headRead := (inner head List.mem_cons_self).ofPiece?_piece
      have tailRead :=
        inductionHypothesis fun component member =>
          inner component (List.mem_cons_of_mem head member)
      rw [List.map_cons, List.filterMap_cons_some headRead, tailRead]

end Component

/-! ## Pieces -/

theorem notMem_of_mem_splitOn
    {value : Type} [BEq value] [LawfulBEq value]
    {separator : value} {items : List value} :
    ∀ {piece : List value},
      piece ∈ items.splitOn separator → separator ∉ piece := by
  induction items with
  | nil => simp
  | cons head tail inductionHypothesis =>
      intro piece member
      rw [List.splitOn_cons_eq_if_modifyHead] at member
      split at member
      · rcases List.mem_cons.1 member with rfl | tailMember
        · exact List.not_mem_nil
        · exact inductionHypothesis tailMember
      · rename_i different
        obtain ⟨first, others, split⟩ :=
          List.exists_cons_of_ne_nil (List.splitOn_ne_nil separator tail)
        rw [split] at member inductionHypothesis
        rcases List.mem_cons.1 member with rfl | otherMember
        · have notFirst := inductionHypothesis List.mem_cons_self
          intro separatorMember
          rcases List.mem_cons.1 separatorMember with rfl | firstMember
          · exact different (beq_self_eq_true separator)
          · exact notFirst firstMember
        · exact inductionHypothesis (List.mem_cons_of_mem first otherMember)

namespace Path

/-- The texts between the slashes of a path spell it. -/
theorem intercalate_pieces (path : Path) :
    [slash].intercalate path.pieces = path.bytes :=
  List.intercalate_splitOn slash

/-- The components that the text between slashes stands for. -/
def innerComponents (path : Path) : List Component :=
  path.pieces.filterMap Component.ofPiece?

/-- The components of a path other than the dot. -/
def moves (path : Path) : List Component :=
  path.components.filter (· ≠ .here)

theorem components_eq (path : Path) :
    path.components = path.lead ++ path.innerComponents :=
  rfl

theorem isInner_of_mem_innerComponents
    {path : Path} {component : Component}
    (member : component ∈ path.innerComponents) :
    component.IsInner := by
  obtain ⟨piece, pieceMember, read⟩ := List.mem_filterMap.1 member
  exact Component.isInner_of_ofPiece? (notMem_of_mem_splitOn pieceMember) read

theorem moves_eq (path : Path) :
    path.moves =
      (if path.isAbsolute then [.root] else []) ++ path.innerComponents := by
  have innerKept :
      path.innerComponents.filter (· ≠ .here) = path.innerComponents :=
    List.filter_eq_self.2 fun component member => by
      simpa using (isInner_of_mem_innerComponents member).ne_here
  rw [moves, components_eq, List.filter_append, innerKept]
  unfold lead
  split
  · rfl
  · split <;> rfl

theorem mem_innerComponents_of_mem_moves
    {path : Path} {component : Component}
    (member : component ∈ path.moves) (notRoot : component ≠ .root) :
    component ∈ path.innerComponents := by
  rw [moves_eq] at member
  rcases List.mem_append.1 member with isRoot | inner
  · split at isRoot
    · exact absurd (List.mem_singleton.1 isRoot) notRoot
    · cases isRoot
  · exact inner

theorem moves_of_relative
    {path : Path} (relative : path.isAbsolute = false) :
    path.moves = path.innerComponents := by
  simp [moves_eq, relative]

theorem moves_arePlain (path : Path) : Component.ArePlain path.moves := by
  have inner : ∀ component ∈ path.innerComponents, component.IsInner :=
    fun _ member => isInner_of_mem_innerComponents member
  rw [moves_eq]
  split
  · exact Or.inr ⟨path.innerComponents, rfl, inner⟩
  · exact Or.inl inner

theorem root_mem_moves_iff (path : Path) :
    .root ∈ path.moves ↔ path.isAbsolute = true := by
  have notInner : Component.root ∉ path.innerComponents :=
    fun member => (isInner_of_mem_innerComponents member).ne_root rfl
  rw [moves_eq]
  cases path.isAbsolute <;> simp [notInner]

theorem isAbsolute_congr
    {left right : Path} (sameMoves : left.moves = right.moves) :
    left.isAbsolute = right.isAbsolute := by
  rw [Bool.eq_iff_iff, ← root_mem_moves_iff, ← root_mem_moves_iff,
    sameMoves]

/-! ## Spelling components -/

theorem bytes_ofComponents_of_inner
    {components : List Component}
    (inner : ∀ component ∈ components, component.IsInner) :
    (ofComponents components).bytes =
      [slash].intercalate (components.map Component.piece) := by
  cases components with
  | nil => rfl
  | cons head tail =>
      cases head with
      | root => exact (inner .root List.mem_cons_self).elim
      | here => rfl
      | up => rfl
      | name bytes => rfl

theorem pieces_ofComponents_of_inner
    {components : List Component} (notEmpty : components ≠ [])
    (inner : ∀ component ∈ components, component.IsInner) :
    (ofComponents components).pieces = components.map Component.piece := by
  rw [pieces, bytes_ofComponents_of_inner inner]
  apply List.splitOn_intercalate
  · intro piece member
    obtain ⟨component, componentMember, rfl⟩ := List.mem_map.1 member
    exact (inner component componentMember).slash_notMem_piece
  · simpa using notEmpty

theorem innerComponents_ofComponents_of_inner
    {components : List Component}
    (inner : ∀ component ∈ components, component.IsInner) :
    (ofComponents components).innerComponents = components := by
  by_cases empty : components = []
  · subst empty
    rfl
  · rw [innerComponents, pieces_ofComponents_of_inner empty inner]
    exact Component.filterMap_ofPiece?_map_piece inner

theorem lead_ofComponents_of_inner
    {components : List Component}
    (inner : ∀ component ∈ components, component.IsInner) :
    (ofComponents components).lead = [] := by
  cases components with
  | nil => rfl
  | cons head tail =>
      have headInner := inner head List.mem_cons_self
      obtain ⟨first, others, pieceEq⟩ :=
        List.exists_cons_of_ne_nil headInner.piece_ne_nil
      have firstNeSlash : first ≠ slash := by
        rintro rfl
        exact headInner.slash_notMem_piece (by simp [pieceEq])
      have relative :
          (ofComponents (head :: tail)).isAbsolute = false := by
        rw [isAbsolute, bytes_ofComponents_of_inner inner]
        cases tail with
        | nil => simpa [pieceEq] using firstNeSlash
        | cons next rest =>
            simpa [pieceEq, List.intercalate_cons_cons] using firstNeSlash
      have pieces :=
        pieces_ofComponents_of_inner (List.cons_ne_nil head tail) inner
      simp [lead, relative, pieces, headInner.piece_ne_dot]

theorem lead_slash_cons (bytes : List UInt8) :
    (⟨slash :: bytes⟩ : Path).lead = [.root] := by
  simp [lead, isAbsolute]

theorem innerComponents_slash_cons (bytes : List UInt8) :
    (⟨slash :: bytes⟩ : Path).innerComponents =
      (⟨bytes⟩ : Path).innerComponents := by
  rw [innerComponents, pieces, List.splitOn_cons_eq_if_modifyHead]
  rfl

theorem ofComponents_root_of_inner
    {components : List Component}
    (inner : ∀ component ∈ components, component.IsInner) :
    ofComponents (.root :: components) =
      ⟨slash :: (ofComponents components).bytes⟩ := by
  rw [bytes_ofComponents_of_inner inner]
  rfl

/-- Reading the spelling of a plain list of components gives it back. -/
theorem components_ofComponents
    {components : List Component}
    (plain : Component.ArePlain components) :
    (ofComponents components).components = components := by
  rcases plain with inner | ⟨rest, rfl, inner⟩
  · rw [components_eq, lead_ofComponents_of_inner inner,
      innerComponents_ofComponents_of_inner inner, List.nil_append]
  · rw [ofComponents_root_of_inner inner, components_eq,
      lead_slash_cons, innerComponents_slash_cons,
      innerComponents_ofComponents_of_inner inner, List.singleton_append]

theorem moves_ofComponents
    {components : List Component}
    (plain : Component.ArePlain components) :
    (ofComponents components).moves = components := by
  rw [moves, components_ofComponents plain]
  apply List.filter_eq_self.2
  intro component member
  rcases plain with inner | ⟨rest, rfl, inner⟩
  · simpa using (inner component member).ne_here
  · rcases List.mem_cons.1 member with rfl | restMember
    · rfl
    · simpa using (inner component restMember).ne_here

/-! ## The normal form -/

theorem normalForm_eq (path : Path) :
    path.normalForm = ofComponents path.moves :=
  rfl

@[simp]
theorem components_normalForm (path : Path) :
    path.normalForm.components = path.moves :=
  components_ofComponents path.moves_arePlain

@[simp]
theorem moves_normalForm (path : Path) :
    path.normalForm.moves = path.moves :=
  moves_ofComponents path.moves_arePlain

@[simp]
theorem isAbsolute_normalForm (path : Path) :
    path.normalForm.isAbsolute = path.isAbsolute :=
  isAbsolute_congr path.moves_normalForm

theorem pieces_normalForm
    {path : Path} (notEmpty : path.innerComponents ≠ []) :
    path.normalForm.pieces =
      (if path.isAbsolute then [[]] else []) ++
        path.innerComponents.map Component.piece := by
  have inner : ∀ component ∈ path.innerComponents, component.IsInner :=
    fun _ member => isInner_of_mem_innerComponents member
  have spelled := pieces_ofComponents_of_inner notEmpty inner
  rw [normalForm_eq, moves_eq]
  cases path.isAbsolute with
  | false => exact spelled
  | true =>
      rw [if_pos rfl, if_pos rfl, List.singleton_append,
        ofComponents_root_of_inner inner, ← spelled, pieces,
        List.splitOn_cons_eq_if_modifyHead]
      rfl

/-- The moves of a path decide its normal form, byte by byte. -/
theorem normalForm_eq_iff {left right : Path} :
    left.normalForm = right.normalForm ↔ left.moves = right.moves := by
  constructor
  · intro sameForm
    rw [← moves_normalForm left, sameForm, moves_normalForm]
  · intro sameMoves
    rw [normalForm_eq, sameMoves, normalForm_eq]

/-- A path in normal form has the components of a normal form only if it is
that normal form. -/
theorem components_normalForm_eq_iff
    {left right : Path} (normal : right.normalForm = right) :
    left.normalForm.components = right.components ↔
      right = left.normalForm := by
  have rightComponents : right.components = right.moves := by
    rw [← components_normalForm, normal]
  rw [components_normalForm, rightComponents, ← normalForm_eq_iff, normal]
  exact eq_comm

@[simp]
theorem normalForm_normalForm (path : Path) :
    path.normalForm.normalForm = path.normalForm :=
  normalForm_eq_iff.2 path.moves_normalForm

end Path

end HeaderAudit
