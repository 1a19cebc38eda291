import HeaderAudit.Proofs.Notice
import Mathlib.Data.List.Forall2

/-! A line without a marker is read as it stands, so a rendering that lost
markers can still be read as the notice. -/

namespace HeaderAudit.CommentStyle

open Text

variable (style : CommentStyle)

/-- The line is the bare marker or begins with the full one. -/
def IsMarked (line : List Char) : Prop :=
  line = style.bareMarker.toList ∨ style.marker.toList <+: line

instance (line : List Char) : Decidable (style.IsMarked line) :=
  inferInstanceAs (Decidable (_ ∨ _))

/-- The line is the rendering of the text, the full marker before the text, or
the text without a marker. -/
def Carries (text line : List Char) : Prop :=
  line = style.mark text ∨ line = style.marker.toList ++ text ∨ line = text

theorem unmark_mark (text : List Char) :
    style.unmark (style.mark text) = text := by
  by_cases empty : text = []
  · subst empty
    exact if_pos rfl
  · rw [mark_of_ne_nil style empty, unmark_marker_append]

theorem unmark_of_not_isMarked
    {line : List Char} (unmarked : ¬ style.IsMarked line) :
    style.unmark line = line := by
  obtain ⟨notBare, notFull⟩ := not_or.1 unmarked
  rw [unmark, if_neg notBare]
  cases found : style.marker.toList.isPrefixOf? line with
  | none => rfl
  | some text =>
      have split := List.isPrefixOf?_eq_some_iff_append_eq.1 found
      exact absurd ⟨text, split⟩ notFull

theorem unmark_eq_iff_carries
    {text : List Char} (unmarked : ¬ style.IsMarked text) (line : List Char) :
    style.unmark line = text ↔ style.Carries text line := by
  constructor
  · intro read
    by_cases marked : style.IsMarked line
    · rcases marked with bare | ⟨rest, full⟩
      · rw [bare, unmark, if_pos rfl] at read
        rw [bare, ← read]
        exact Or.inl rfl
      · rw [← full, unmark_marker_append] at read
        rw [← full, read]
        exact Or.inr (Or.inl rfl)
    · rw [unmark_of_not_isMarked style marked] at read
      exact Or.inr (Or.inr read)
  · rintro (rendered | full | verbatim)
    · rw [rendered, unmark_mark]
    · rw [full, unmark_marker_append]
    · rw [verbatim, unmark_of_not_isMarked style unmarked]

/-- Lines are read as texts that do not look marked exactly when each of them
carries the text in its place. -/
theorem map_unmark_eq_iff_carries
    {body : List (List Char)}
    (unmarked : ∀ text ∈ body, ¬ style.IsMarked text) :
    ∀ inner : List (List Char),
      inner.map style.unmark = body ↔
        List.Forall₂ style.Carries body inner := by
  induction body with
  | nil =>
      intro inner
      rw [List.map_eq_nil_iff, List.forall₂_nil_left_iff]
  | cons text others inductionHypothesis =>
      obtain ⟨textUnmarked, othersUnmarked⟩ := List.forall_mem_cons.1 unmarked
      intro inner
      cases inner with
      | nil => simp
      | cons line rest =>
          rw [List.map_cons, List.cons.injEq, List.forall₂_cons,
            style.unmark_eq_iff_carries textUnmarked,
            inductionHypothesis othersUnmarked]

/-- A marked line begins with the first character of the marker. -/
theorem IsMarked.head?_eq
    {line : List Char} (marked : style.IsMarked line) :
    line.head? = style.marker.toList.head? := by
  rcases marked with bare | ⟨rest, full⟩
  · rw [bare]
    cases style <;> decide
  · have notEmpty : style.marker.toList ≠ [] := by
      cases style <;> decide
    rw [← full, List.head?_append_of_ne_nil _ notEmpty]

theorem head?_ne_of_mem_noticeBody :
    ∀ text ∈ noticeBody,
      text.toList.head? ≠ some ' ' ∧ text.toList.head? ≠ some '#' := by
  decide +kernel

theorem not_isMarked_of_mem_noticeBody :
    ∀ text ∈ noticeBody.map String.toList, ¬ style.IsMarked text := by
  rw [List.forall_mem_map]
  intro text member marked
  have begins := marked.head?_eq
  obtain ⟨noSpace, noHash⟩ := head?_ne_of_mem_noticeBody text member
  cases style with
  | block => exact noSpace begins
  | line => exact noHash begins

/-- A text is read as the notice exactly when each line between its first and
its last one carries the line of the notice in its place.  So a lost marker
shows in the body, unless the line that lost it is itself a line of the
notice. -/
theorem bodyLines_eq_notice (rendered : List Char) :
    (style.bodyLines rendered = style.bodyLines style.notice.toList ↔
      List.Forall₂ style.Carries (noticeBody.map String.toList)
        (innerLines rendered)) ∧
    (style.bodyLines rendered = style.bodyLines style.notice.toList →
      ∀ line ∈ innerLines rendered,
        style.IsMarked line ↔ line ∉ noticeBody.map String.toList) := by
  have noneMarked := style.not_isMarked_of_mem_noticeBody
  rw [bodyLines_notice, bodyLines_eq_map_unmark]
  refine ⟨style.map_unmark_eq_iff_carries noneMarked _, ?_⟩
  intro same line member
  constructor
  · intro marked ofNotice
    exact noneMarked line ofNotice marked
  · intro notOfNotice
    by_contra unmarked
    -- Read as it stands, the line is in the body, which is the notice's.
    have read : style.unmark line ∈ noticeBody.map String.toList :=
      same ▸ List.mem_map_of_mem member
    rw [unmark_of_not_isMarked style unmarked] at read
    exact notOfNotice read

/-- The notice between the delimiters of a style, without any marker. -/
def bareNotice : List Char :=
  joinLines <|
    style.opening.toList :: noticeBody.map String.toList ++
      [style.closing.toList]

theorem innerLines_bareNotice :
    innerLines style.bareNotice = noticeBody.map String.toList := by
  have noNewlines : ∀ text ∈ noticeBody.map String.toList, '\n' ∉ text :=
    List.forall_mem_map.2 fun text member =>
      (isLine_of_mem_noticeBody text member).noNewline
  rw [bareNotice, style.innerLines_joinLines noNewlines, List.map_map]
  exact
    List.map_congr_left fun text member =>
      (isLine_of_mem_noticeBody text member).dropReturn_eq

theorem bodyLines_bareNotice :
    style.bodyLines style.bareNotice =
      style.bodyLines style.notice.toList := by
  rw [bodyLines_notice, bodyLines_eq_map_unmark, innerLines_bareNotice,
    style.map_unmark_eq_iff_carries style.not_isMarked_of_mem_noticeBody]
  exact List.forall₂_same.2 fun text _ => Or.inr (Or.inr rfl)

/-- Without its markers the notice is read as itself, and none of its lines is
marked. -/
theorem bareNotice_read_as_notice :
    line.bodyLines line.bareNotice = line.bodyLines line.notice.toList ∧
      ∀ text ∈ innerLines line.bareNotice,
        line.IsMarked text ↔ text ∉ noticeBody.map String.toList := by
  have same := line.bodyLines_bareNotice
  exact ⟨same, (line.bodyLines_eq_notice line.bareNotice).2 same⟩

/-- Not every text that is read as the notice has its lines marked. -/
theorem bareNotice_unmarked :
    line.bodyLines line.bareNotice = line.bodyLines line.notice.toList ∧
      "This file is part of Lydia.".toList ∈ innerLines line.bareNotice ∧
      ¬ line.IsMarked "This file is part of Lydia.".toList := by
  have first :
      "This file is part of Lydia.".toList ∈ noticeBody.map String.toList :=
    List.mem_cons_self
  rw [innerLines_bareNotice]
  exact
    ⟨line.bodyLines_bareNotice, first,
      line.not_isMarked_of_mem_noticeBody _ first⟩

end HeaderAudit.CommentStyle
