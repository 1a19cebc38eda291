import HeaderAudit.Proofs.Path.Components
import HeaderAudit.Proofs.Text.Utf8

/-! Whether a path is UTF-8 is decided by the names among its moves, and not by
their spelling. -/

namespace HeaderAudit.Path

theorem text?_eq_some_iff {path : Path} {text : List Char} :
    path.text? = some text ↔ path.bytes = Utf8.encode text :=
  Utf8.decode_eq_some_iff

theorem text?_ofString (text : String) :
    (ofString text).text? = some text.toList :=
  text?_eq_some_iff.2 rfl

theorem ofString_of_text
    {path : Path} {text : List Char} (readable : path.text? = some text) :
    ofString (String.ofList text) = path := by
  rw [ofString, String.toList_ofList, ← text?_eq_some_iff.1 readable]

/-- The readable form of a path that is UTF-8 is its text. -/
theorem display_of_text
    {path : Path} {text : List Char} (readable : path.text? = some text) :
    path.display = String.ofList text := by
  rw [display, Utf8.decodeLossy_of_decode readable]

/-- The slashes of a path are those of its text. -/
theorem count_slash_of_text
    {path : Path} {text : List Char} (readable : path.text? = some text) :
    path.bytes.count slash = text.count '/' := by
  have ascii : slash < 0x80 := by decide
  rw [text?_eq_some_iff.1 readable, Utf8.count_encode_ascii ascii]
  rfl

/-- A path has no text when one of the names that it moves through is not
UTF-8. -/
theorem text?_eq_none_iff (path : Path) :
    path.text? = none ↔
      ∃ component ∈ path.moves, none ∈ Utf8.pieces component.piece := by
  have ascii : slash < 0x80 := by decide
  rw [text?, Utf8.decode_eq_none_iff, ← path.intercalate_pieces,
    Utf8.none_mem_pieces_intercalate_iff ascii]
  constructor
  · rintro ⟨piece, member, unreadable⟩
    cases read : Component.ofPiece? piece with
    | none =>
        unfold Component.ofPiece? at read
        split at read
        · rename_i stays
          rcases stays with rfl | rfl
          · simp [Utf8.pieces] at unreadable
          · simp [Utf8.pieces, dot] at unreadable
        · split at read <;> cases read
    | some component =>
        have inner : component ∈ path.innerComponents :=
          List.mem_filterMap.2 ⟨piece, member, read⟩
        rw [← Component.piece_of_ofPiece? read] at unreadable
        have move : component ∈ path.moves := by
          rw [moves_eq]
          exact List.mem_append_right _ inner
        exact ⟨component, move, unreadable⟩
  · rintro ⟨component, member, unreadable⟩
    have notRoot : component ≠ .root := by
      rintro rfl
      simp [Component.piece, Utf8.pieces] at unreadable
    have inner := mem_innerComponents_of_mem_moves member notRoot
    obtain ⟨piece, pieceMember, read⟩ := List.mem_filterMap.1 inner
    rw [Component.piece_of_ofPiece? read] at unreadable
    exact ⟨piece, pieceMember, unreadable⟩

theorem text?_eq_none_congr
    {left right : Path} (sameMoves : left.moves = right.moves) :
    left.text? = none ↔ right.text? = none := by
  rw [text?_eq_none_iff, text?_eq_none_iff, sameMoves]

end HeaderAudit.Path
