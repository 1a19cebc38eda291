import HeaderAudit.Proofs.Category
import HeaderAudit.Proofs.Header
import HeaderAudit.Proofs.Notice
import HeaderAudit.Proofs.OrderedSet
import HeaderAudit.Report.Text

/-! The header for a category stands between its title in the hints and the
next empty line. -/

namespace HeaderAudit

/-- The lines of the notice in a comment style. -/
def CommentStyle.noticeLines (style : CommentStyle) : List (List Char) :=
  style.opening.toList ::
    (noticeBody.map String.toList).map style.mark ++ [style.closing.toList]

theorem CommentStyle.toList_notice (style : CommentStyle) :
    style.notice.toList = Text.joinLines style.noticeLines :=
  String.toList_ofList

namespace Header

/-- The lines that come before the notice. -/
def preamble : Category → List (List Char)
  | .header => [includeOnceLine.toList]
  | .script => [interpreterLine.toList, encodingLine.toList]
  | _ => []

/-- The style of the notice. -/
def style : Category → CommentStyle
  | .compiledSource => .block
  | .header => .block
  | _ => .line

/-- The lines of the header that a category is shown. -/
def shownLines (category : Category) : List (List Char) :=
  preamble category ++ (style category).noticeLines

theorem shownLines_ne_nil (category : Category) :
    shownLines category ≠ [] := by
  simp [shownLines, CommentStyle.noticeLines]

theorem exists_expectedText
    {category : Category} (governed : category.isGoverned = true) :
    ∃ text,
      expectedText? category true = some text ∧
        text.toList = Text.joinLines (shownLines category) := by
  have more (style : CommentStyle) : style.noticeLines ≠ [] := by
    simp [CommentStyle.noticeLines]
  cases category with
  | compiledSource => exact ⟨_, rfl, CommentStyle.toList_notice .block⟩
  | header =>
      refine ⟨_, rfl, ?_⟩
      simp only [String.toList_append, CommentStyle.toList_notice]
      exact
        (List.append_assoc _ _ _).trans (Text.joinLines_cons _ (more _)).symm
  | script =>
      refine ⟨_, rfl, ?_⟩
      simp only [String.toList_append, CommentStyle.toList_notice,
        List.append_assoc]
      change
        _ = Text.joinLines (_ :: _ :: CommentStyle.noticeLines .line)
      rw [Text.joinLines_cons _ (List.cons_ne_nil _ _),
        Text.joinLines_cons _ (more _)]
      rfl
  | buildConfig => exact ⟨_, rfl, CommentStyle.toList_notice .line⟩
  | other => cases governed

/-- A line of a header is not empty and begins like no title. -/
def IsHeaderLine (line : List Char) : Prop :=
  Text.IsLine line ∧ line ≠ [] ∧ line.head? ≠ some 'E'

instance (line : List Char) : Decidable (IsHeaderLine line) :=
  inferInstanceAs (Decidable (_ ∧ _ ∧ _))

theorem isHeaderLine_append
    {line rest : List Char} (isHeaderLine : IsHeaderLine line)
    (isLine : Text.IsLine rest) : IsHeaderLine (line ++ rest) := by
  obtain ⟨lineIsLine, notEmpty, notTitle⟩ := isHeaderLine
  refine ⟨List.forall_mem_append.2 ⟨lineIsLine, isLine⟩, ?_, ?_⟩
  · exact List.append_ne_nil_of_left_ne_nil notEmpty rest
  · rw [List.head?_append_of_ne_nil _ notEmpty]
    exact notTitle

theorem isHeaderLine_mark
    (style : CommentStyle) {text : List Char} (isLine : Text.IsLine text) :
    IsHeaderLine (style.mark text) := by
  have bare : IsHeaderLine style.bareMarker.toList := by
    cases style <;> decide +kernel
  have marker : IsHeaderLine style.marker.toList := by
    cases style <;> decide +kernel
  unfold CommentStyle.mark
  split
  · exact bare
  · exact isHeaderLine_append marker isLine

theorem isHeaderLine_of_mem_shownLines
    {category : Category} {line : List Char}
    (member : line ∈ shownLines category) : IsHeaderLine line := by
  rcases List.mem_append.1 member with before | ofNotice
  · revert line
    cases category <;> decide +kernel
  · have delimiters (style : CommentStyle) :
        IsHeaderLine style.opening.toList ∧
          IsHeaderLine style.closing.toList := by
      cases style <;> decide +kernel
    simp only [CommentStyle.noticeLines, List.cons_append, List.mem_cons,
      List.mem_append, List.mem_map, List.not_mem_nil, or_false]
      at ofNotice
    rcases ofNotice with rfl | ⟨_, ⟨text, listed, rfl⟩, rfl⟩ | rfl
    · exact (delimiters _).1
    · exact
        isHeaderLine_mark _
          (CommentStyle.isLine_of_mem_noticeBody text listed)
    · exact (delimiters _).2

end Header

namespace Report

/-- The lines that hints show for a category: those behind its title, up to
the next empty line. -/
def headerShown (hints : String) (category : Category) : List (List Char) :=
  let fromTitle :=
    (Text.lines hints.toList).dropWhile (· ≠ (hintTitle category).toList)
  fromTitle.tail.takeWhile (· ≠ [])

/-- The lines of the hint for a category. -/
def hintLines (category : Category) : List (List Char) :=
  if category.isGoverned then
    [] :: (hintTitle category).toList :: Header.shownLines category
  else
    []

theorem lines_hint (category : Category) (rest : List Char) :
    Text.lines ((hint category).toList ++ rest) =
      hintLines category ++ Text.lines rest := by
  unfold hintLines
  cases governed : category.isGoverned with
  | false =>
      cases category <;> cases governed
      rfl
  | true =>
      obtain ⟨text, expected, textEq⟩ := Header.exists_expectedText governed
      have titleIsLine : Text.IsLine (hintTitle category).toList := by
        cases category <;> decide +kernel
      have spelled :
          (hint category).toList ++ rest =
            '\n' :: ((hintTitle category).toList ++
              '\n' :: (Text.joinLines (Header.shownLines category) ++
                '\n' :: rest)) := by
        simp [hint, expected, unlines, textEq]
      rw [spelled, Text.lines, Text.lines_append_newline titleIsLine,
        Text.lines_joinLines (Header.shownLines_ne_nil category)
          fun _ member => (Header.isHeaderLine_of_mem_shownLines member).1]
      rfl

theorem lines_hints (categories : List Category) :
    Text.lines (String.join (categories.map hint)).toList =
      categories.flatMap hintLines := by
  induction categories with
  | nil => rfl
  | cons category rest inductionHypothesis =>
      rw [List.map_cons, String.join_cons, String.toList_append, lines_hint,
        inductionHypothesis, List.flatMap_cons]

theorem hintTitle_injective {left right : Category} :
    hintTitle left = hintTitle right → left = right := by
  cases left <;> cases right <;> decide

theorem head?_hintTitle (category : Category) :
    (hintTitle category).toList.head? = some 'E' := by
  have begins : "Expected header for ".toList.head? = some 'E' := by
    decide +kernel
  unfold hintTitle
  rw [String.append_assoc, String.toList_append, List.head?_append, begins,
    Option.some_or]

theorem title_notMem_hintLines
    {category tested : Category} (different : tested ≠ category) :
    (hintTitle category).toList ∉ hintLines tested := by
  have begins := head?_hintTitle category
  unfold hintLines
  split
  · intro listed
    rcases List.mem_cons.1 listed with empty | titleOrLine
    · rw [empty] at begins
      cases begins
    · rcases List.mem_cons.1 titleOrLine with sameTitle | line
      · have same := hintTitle_injective (String.toList_injective sameTitle)
        exact different same.symm
      · exact (Header.isHeaderLine_of_mem_shownLines line).2.2 begins
  · exact List.not_mem_nil

theorem takeWhile_flatMap_hintLines (categories : List Category) :
    (categories.flatMap hintLines).takeWhile (· ≠ []) = [] := by
  induction categories with
  | nil => rfl
  | cons category rest inductionHypothesis =>
      rw [List.flatMap_cons, hintLines]
      split
      · rfl
      · exact inductionHypothesis

theorem dropWhile_flatMap_hintLines
    {category : Category} (governed : category.isGoverned = true)
    {categories : List Category} (member : category ∈ categories) :
    ∃ later : List Category,
      (categories.flatMap hintLines).dropWhile
          (· ≠ (hintTitle category).toList) =
        (hintTitle category).toList ::
          (Header.shownLines category ++ later.flatMap hintLines) := by
  induction categories with
  | nil => cases member
  | cons first rest inductionHypothesis =>
      rw [List.flatMap_cons]
      by_cases same : first = category
      · subst same
        have notEmpty : [] ≠ (hintTitle first).toList := by
          intro empty
          have begins := head?_hintTitle first
          rw [← empty] at begins
          cases begins
        refine ⟨rest, ?_⟩
        rw [hintLines, if_pos governed, List.cons_append, List.dropWhile_cons,
          if_pos (decide_eq_true notEmpty), List.cons_append,
          List.dropWhile_cons, if_neg (by simp)]
      · rw [List.dropWhile_append_of_pos]
        · rcases List.mem_cons.1 member with isFirst | later
          · exact absurd isFirst.symm same
          · exact inductionHypothesis later
        · intro line listed
          rw [decide_eq_true_iff]
          rintro rfl
          exact title_notMem_hintLines same listed

/-- The hints show the expected header of every category that is violated. -/
theorem headerShown_hints
    {report : Report} {category : Category}
    (governed : category.isGoverned = true)
    (violated : category ∈ report.violatedCategories) :
    headerShown report.hints category = Header.shownLines category := by
  obtain ⟨later, fromTitle⟩ :=
    dropWhile_flatMap_hintLines governed violated
  rw [headerShown, hints, lines_hints]
  simp only [fromTitle, List.tail_cons]
  rw [List.takeWhile_append_of_pos, takeWhile_flatMap_hintLines,
    List.append_nil]
  intro line member
  rw [decide_eq_true_iff]
  exact (Header.isHeaderLine_of_mem_shownLines member).2.1

theorem mem_violatedCategories
    {report : Report} {violation : Violation}
    (member : violation ∈ report.violations) :
    violation.category ∈ report.violatedCategories :=
  OrderedSet.mem_ofList (List.mem_map_of_mem member)

/-- Hints show a header for a category; for scripts its first two lines can be
left out. -/
def ShowsHeader
    (hints : String) (category : Category) (header : List Char) : Prop :=
  header = Text.joinLines (headerShown hints category) ∨
    category = .script ∧
      header = Text.joinLines ((headerShown hints category).drop 2)

/-- A content that begins with a header that the hints show is headed. -/
theorem isHeaded_of_showsHeader
    {report : Report} {violation : Violation}
    (governed : violation.category.isGoverned = true)
    (member : violation ∈ report.violations) {header : List Char}
    (shows : ShowsHeader report.hints violation.category header)
    (rest : List Char) :
    violation.category.IsHeaded (header ++ rest) := by
  have violated := mem_violatedCategories member
  unfold ShowsHeader at shows
  rw [headerShown_hints governed violated] at shows
  rcases shows with whole | ⟨isScript, short⟩
  · obtain ⟨text, expected, textEq⟩ := Header.exists_expectedText governed
    refine ⟨true, text, expected, ?_⟩
    rw [textEq, whole]
    exact List.prefix_append _ rest
  · rw [isScript] at short ⊢
    refine ⟨false, CommentStyle.notice .line, rfl, ?_⟩
    rw [CommentStyle.toList_notice, short]
    exact List.prefix_append _ rest

end Report

end HeaderAudit
