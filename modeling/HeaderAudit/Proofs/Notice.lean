import HeaderAudit.Notice
import HeaderAudit.Proofs.Text.Lines

/-! The marker of a line is longer than the bare one, so a marked line is never
taken for an empty one. A carriage return at the end of a line is lost with the
line end. -/

namespace HeaderAudit.CommentStyle

open Text

variable (style : CommentStyle)

theorem length_bareMarker_lt :
    style.bareMarker.toList.length < style.marker.toList.length := by
  cases style <;> decide

/-- Behind the marker any text is found again. -/
theorem unmark_marker_append (text : List Char) :
    style.unmark (style.marker.toList ++ text) = text := by
  have notBare : style.marker.toList ++ text ≠ style.bareMarker.toList := by
    intro same
    have lengths := congrArg List.length same
    have shorter := style.length_bareMarker_lt
    rw [List.length_append] at lengths
    omega
  rw [unmark, if_neg notBare,
    List.isPrefixOf?_eq_some_iff_append_eq.2 rfl]
  rfl

theorem mark_of_ne_nil {text : List Char} (some : text ≠ []) :
    style.mark text = style.marker.toList ++ text :=
  if_neg (by simpa using some)

/-- All that a line end takes from a marked line it takes from its text. -/
theorem unmark_dropReturn_mark (text : List Char) :
    style.unmark (dropReturn (style.mark text)) = dropReturn text := by
  by_cases empty : text = []
  · subst empty
    have kept : dropReturn style.bareMarker.toList = style.bareMarker.toList :=
      dropReturn_of_ne (by cases style <;> decide)
    change style.unmark (dropReturn style.bareMarker.toList) = []
    rw [kept, unmark, if_pos rfl]
  · rw [mark_of_ne_nil style empty, dropReturn_append_of_ne_nil _ empty,
      unmark_marker_append]

theorem newline_notMem_mark
    {text : List Char} (noNewline : '\n' ∉ text) :
    '\n' ∉ style.mark text := by
  have markers :
      '\n' ∉ style.bareMarker.toList ∧ '\n' ∉ style.marker.toList := by
    cases style <;> decide
  unfold mark
  split
  · exact markers.1
  · exact List.not_mem_append markers.2 noNewline

theorem newline_notMem_unmark
    {line : List Char} (noNewline : '\n' ∉ line) :
    '\n' ∉ style.unmark line := by
  unfold unmark
  split
  · exact List.not_mem_nil
  · cases found : style.marker.toList.isPrefixOf? line with
    | none => exact noNewline
    | some text =>
        have split := List.isPrefixOf?_eq_some_iff_append_eq.1 found
        rw [← split] at noNewline
        exact fun member => noNewline (List.mem_append_right _ member)

/-- The lines strictly between the first and the last line of a rendering. -/
def innerLines (rendered : List Char) : List (List Char) :=
  ((lines rendered).drop 1).dropLast

theorem bodyLines_eq_map_unmark (rendered : List Char) :
    style.bodyLines rendered = (innerLines rendered).map style.unmark :=
  rfl

/-- What is put between the delimiters stands between them, whatever it looks
like. -/
theorem innerLines_joinLines
    {inner : List (List Char)} (noNewlines : ∀ line ∈ inner, '\n' ∉ line) :
    innerLines
        (joinLines <|
          style.opening.toList :: inner ++ [style.closing.toList]) =
      inner.map dropReturn := by
  have delimiters :
      '\n' ∉ style.opening.toList ∧ '\n' ∉ style.closing.toList ∧
        style.closing.toList ≠ [] := by
    cases style <;> decide
  rw [innerLines,
    lines_joinLines_append_singleton
      (List.forall_mem_cons.2 ⟨delimiters.1, noNewlines⟩)
      delimiters.2.1 delimiters.2.2,
    List.map_cons, List.cons_append, List.drop_one, List.tail_cons,
    List.dropLast_concat]

/-- Text lines without newlines are found again up to the carriage returns at
their ends. -/
theorem bodyLines_render_of_noNewline
    {body : List (List Char)} (noNewlines : ∀ text ∈ body, '\n' ∉ text) :
    style.bodyLines (style.render body) = body.map dropReturn := by
  have marked : ∀ line ∈ body.map style.mark, '\n' ∉ line :=
    List.forall_mem_map.2 fun text member =>
      style.newline_notMem_mark (noNewlines text member)
  rw [bodyLines_eq_map_unmark, render, style.innerLines_joinLines marked,
    List.map_map, List.map_map]
  exact List.map_congr_left fun text _ => style.unmark_dropReturn_mark text

theorem noNewline_of_mem_bodyLines
    {rendered text : List Char} (member : text ∈ style.bodyLines rendered) :
    '\n' ∉ text := by
  obtain ⟨line, lineMember, rfl⟩ := List.mem_map.1 member
  apply newline_notMem_unmark
  have inner := List.mem_of_mem_drop (List.dropLast_subset _ lineMember)
  exact newline_notMem_of_mem_lines inner

/-- The text can be a line of the notice: it holds no newline and does not end
in a carriage return. -/
def IsBodyLine (text : List Char) : Prop :=
  '\n' ∉ text ∧ text.getLast? ≠ some '\r'

instance (text : List Char) : Decidable (IsBodyLine text) :=
  inferInstanceAs (Decidable (_ ∧ _))

theorem map_dropReturn_eq_self_iff {body : List (List Char)} :
    body.map dropReturn = body ↔
      ∀ text ∈ body, text.getLast? ≠ some '\r' := by
  have pointwise : body.map dropReturn = body.map id ↔ _ := List.map_inj_left
  rw [List.map_id] at pointwise
  simpa only [id_eq, dropReturn_eq_self_iff] using pointwise

theorem bodyLines_render_iff (body : List (List Char)) :
    style.bodyLines (style.render body) = body ↔
      ∀ text ∈ body, IsBodyLine text := by
  constructor
  · intro restored
    have noNewlines : ∀ text ∈ body, '\n' ∉ text := by
      intro text member
      rw [← restored] at member
      exact style.noNewline_of_mem_bodyLines member
    rw [style.bodyLines_render_of_noNewline noNewlines] at restored
    have noReturns := map_dropReturn_eq_self_iff.1 restored
    intro text member
    exact ⟨noNewlines text member, noReturns text member⟩
  · intro areLines
    rw [style.bodyLines_render_of_noNewline fun text member =>
      (areLines text member).1]
    exact
      map_dropReturn_eq_self_iff.2 fun text member => (areLines text member).2

/-- A rendering gives back the text lines it was made of exactly when each of
them can be a line of the notice, and the two styles give back the same text
lines when no text holds a newline. -/
theorem bodyLines_render (body : List (List Char)) :
    (∀ style : CommentStyle,
      style.bodyLines (style.render body) = body ↔
        ∀ text ∈ body, IsBodyLine text) ∧
    ((∀ text ∈ body, '\n' ∉ text) →
      block.bodyLines (block.render body) =
        line.bodyLines (line.render body)) := by
  refine ⟨fun style => style.bodyLines_render_iff body, fun noNewlines => ?_⟩
  rw [block.bodyLines_render_of_noNewline noNewlines,
    line.bodyLines_render_of_noNewline noNewlines]

/-- Text lines that look like markers and delimiters of both styles. -/
def disguisedBody : List (List Char) :=
  ["/*", " * ", " *", "# # \r ", "", "#", " */"].map String.toList

theorem disguisedBody_restored :
    (∀ text ∈ disguisedBody, IsBodyLine text) ∧
      block.bodyLines (block.render disguisedBody) = disguisedBody ∧
      line.bodyLines (line.render disguisedBody) = disguisedBody := by
  have areLines : ∀ text ∈ disguisedBody, IsBodyLine text := by decide
  obtain ⟨restored, _⟩ := bodyLines_render disguisedBody
  exact ⟨areLines, (restored block).2 areLines, (restored line).2 areLines⟩

theorem isLine_of_mem_noticeBody :
    ∀ text ∈ noticeBody, IsLine text.toList := by
  decide +kernel

theorem isBodyLine_of_isLine {text : List Char} (isLine : IsLine text) :
    IsBodyLine text :=
  ⟨isLine.noNewline, dropReturn_eq_self_iff.1 isLine.dropReturn_eq⟩

theorem bodyLines_notice :
    style.bodyLines style.notice.toList = noticeBody.map String.toList := by
  have areBodyLines :
      ∀ text ∈ noticeBody.map String.toList, IsBodyLine text :=
    List.forall_mem_map.2 fun text member =>
      isBodyLine_of_isLine (isLine_of_mem_noticeBody text member)
  rw [notice, String.toList_ofList]
  exact (style.bodyLines_render_iff _).2 areBodyLines

end HeaderAudit.CommentStyle
