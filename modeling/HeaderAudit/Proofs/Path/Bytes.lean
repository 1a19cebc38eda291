import HeaderAudit.Proofs.Path.Join
import Mathlib.Data.List.Basic

namespace HeaderAudit

namespace Path

theorem mem_intercalate
    {separator byte : UInt8} {pieces : List (List UInt8)}
    (member : byte ∈ [separator].intercalate pieces) :
    byte = separator ∨ ∃ piece ∈ pieces, byte ∈ piece := by
  induction pieces with
  | nil => cases member
  | cons piece others inductionHypothesis =>
      by_cases empty : others = []
      · subst empty
        rw [List.intercalate_singleton] at member
        exact Or.inr ⟨piece, List.mem_cons_self, member⟩
      · rw [List.intercalate_cons_of_ne_nil empty] at member
        rcases List.mem_append.1 member with front | inOthers
        · rcases List.mem_append.1 front with inPiece | inSeparator
          · exact Or.inr ⟨piece, List.mem_cons_self, inPiece⟩
          · exact Or.inl (List.mem_singleton.1 inSeparator)
        · rcases inductionHypothesis inOthers with
            same | ⟨other, otherMember, inOther⟩
          · exact Or.inl same
          · exact
              Or.inr ⟨other, List.mem_cons_of_mem piece otherMember, inOther⟩

theorem mem_intercalate_of_mem
    {separator byte : UInt8} {piece : List UInt8}
    {pieces : List (List UInt8)}
    (pieceMember : piece ∈ pieces) (member : byte ∈ piece) :
    byte ∈ [separator].intercalate pieces := by
  induction pieces with
  | nil => cases pieceMember
  | cons first others inductionHypothesis =>
      by_cases empty : others = []
      · subst empty
        rw [List.mem_singleton.1 pieceMember] at member
        rwa [List.intercalate_singleton]
      · rw [List.intercalate_cons_of_ne_nil empty]
        rcases List.mem_cons.1 pieceMember with rfl | otherMember
        · exact List.mem_append_left _ (List.mem_append_left _ member)
        · exact List.mem_append_right _ (inductionHypothesis otherMember)

theorem mem_bytes_of_mem_piece
    {path : Path} {component : Component} {byte : UInt8}
    (move : component ∈ path.moves) (member : byte ∈ component.piece) :
    byte ∈ path.bytes := by
  have notRoot : component ≠ .root := by
    rintro rfl
    cases member
  have inner := mem_innerComponents_of_mem_moves move notRoot
  obtain ⟨piece, pieceMember, read⟩ := List.mem_filterMap.1 inner
  rw [Component.piece_of_ofPiece? read] at member
  have inSpelling : byte ∈ [slash].intercalate path.pieces :=
    mem_intercalate_of_mem pieceMember member
  rwa [intercalate_pieces] at inSpelling

theorem mem_bytes_normalForm
    {path : Path} {byte : UInt8} (member : byte ∈ path.normalForm.bytes) :
    byte = slash ∨ ∃ component ∈ path.moves, byte ∈ component.piece := by
  have inner : ∀ component ∈ path.innerComponents, component.IsInner :=
    fun _ innerMember => isInner_of_mem_innerComponents innerMember
  have inSpelling
      (spelled : byte ∈ (ofComponents path.innerComponents).bytes) :
      byte = slash ∨ ∃ component ∈ path.moves, byte ∈ component.piece := by
    rw [bytes_ofComponents_of_inner inner] at spelled
    rcases mem_intercalate spelled with same | ⟨piece, pieceMember, inPiece⟩
    · exact Or.inl same
    · obtain ⟨component, componentMember, rfl⟩ := List.mem_map.1 pieceMember
      refine Or.inr ⟨component, ?_, inPiece⟩
      rw [moves_eq]
      exact List.mem_append_right _ componentMember
  rw [normalForm_eq, moves_eq] at member
  cases absolute : path.isAbsolute with
  | false =>
      rw [absolute] at member
      exact inSpelling member
  | true =>
      rw [absolute, if_pos rfl, List.singleton_append,
        ofComponents_root_of_inner inner] at member
      rcases List.mem_cons.1 member with same | spelled
      · exact Or.inl same
      · exact inSpelling spelled

theorem length_intercalate_le_of_sublist
    {separator : List UInt8} {some all : List (List UInt8)}
    (kept : some.Sublist all) :
    (separator.intercalate some).length ≤
      (separator.intercalate all).length := by
  induction kept with
  | slnil => exact Nat.le_refl _
  | @cons some all piece kept inductionHypothesis =>
      by_cases empty : all = []
      · subst empty
        rw [List.sublist_nil.1 kept]
        simp
      · rw [List.intercalate_cons_of_ne_nil empty]
        simp only [List.length_append]
        omega
  | @cons_cons some all piece kept inductionHypothesis =>
      by_cases empty : some = []
      · subst empty
        cases all with
        | nil => exact Nat.le_refl _
        | cons next others => simp [List.intercalate_cons_cons]
      · have allNotEmpty : all ≠ [] := by
          rintro rfl
          exact empty (List.sublist_nil.1 kept)
        rw [List.intercalate_cons_of_ne_nil empty,
          List.intercalate_cons_of_ne_nil allNotEmpty]
        simp only [List.length_append]
        omega

theorem map_piece_filterMap_sublist (pieces : List (List UInt8)) :
    ((pieces.filterMap Component.ofPiece?).map Component.piece).Sublist
      pieces := by
  induction pieces with
  | nil => exact List.Sublist.refl []
  | cons piece others inductionHypothesis =>
      cases read : Component.ofPiece? piece with
      | none =>
          rw [List.filterMap_cons_none read]
          exact inductionHypothesis.cons piece
      | some component =>
          rw [List.filterMap_cons_some read, List.map_cons,
            Component.piece_of_ofPiece? read]
          exact inductionHypothesis.cons_cons piece

theorem length_spelling_le (path : Path) :
    (ofComponents path.innerComponents).bytes.length ≤ path.bytes.length := by
  rw [bytes_ofComponents_of_inner fun _ member =>
    isInner_of_mem_innerComponents member]
  calc
    _ ≤ ([slash].intercalate path.pieces).length :=
      length_intercalate_le_of_sublist
        (map_piece_filterMap_sublist path.pieces)
    _ = path.bytes.length := by rw [intercalate_pieces]

/-- No spelling of a path is shorter than its normal form. -/
theorem length_normalForm_le (path : Path) :
    path.normalForm.bytes.length ≤ path.bytes.length := by
  rw [normalForm_eq, moves_eq]
  cases absolute : path.isAbsolute with
  | false => exact path.length_spelling_le
  | true =>
      obtain ⟨bytes⟩ := path
      cases bytes with
      | nil => cases absolute
      | cons first rest =>
          have firstEq : first = slash := by
            simpa [isAbsolute] using absolute
          subst firstEq
          have restShorter := length_spelling_le ⟨rest⟩
          rw [innerComponents_slash_cons, if_pos rfl, List.singleton_append,
            ofComponents_root_of_inner fun _ member =>
              isInner_of_mem_innerComponents member]
          simpa using restShorter

theorem length_join_normalForm_le (base path : Path) :
    (base.join path.normalForm).bytes.length ≤
      (base.join path).bytes.length := by
  have shorter := path.length_normalForm_le
  have sameStart := path.isAbsolute_normalForm
  cases absolute : path.isAbsolute with
  | true =>
      rw [absolute] at sameStart
      rw [join_of_absolute base absolute, join_of_absolute base sameStart]
      exact shorter
  | false =>
      rw [absolute] at sameStart
      rw [join_of_relative base absolute, join_of_relative base sameStart]
      simp only [List.length_append]
      omega

end Path

end HeaderAudit
