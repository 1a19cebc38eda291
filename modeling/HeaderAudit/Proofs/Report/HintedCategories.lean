import HeaderAudit.Proofs.Report.Hints

/-! Nothing in the hints but the title of a block looks like one, so the
categories are read off them. -/

namespace HeaderAudit.Report

variable {report : Report} {category : Category}

/-- The category is governed, and one of the violations is of it. -/
def IsViolated (report : Report) (category : Category) : Prop :=
  category.isGoverned = true ∧
    ∃ violation ∈ report.violations, violation.category = category

instance (report : Report) (category : Category) :
    Decidable (report.IsViolated category) :=
  inferInstanceAs (Decidable (_ ∧ _))

theorem mem_violatedCategories_iff :
    category ∈ report.violatedCategories ↔
      ∃ violation ∈ report.violations, violation.category = category := by
  rw [← List.mem_map]
  exact ⟨OrderedSet.mem_of_mem_ofList, OrderedSet.mem_ofList⟩

theorem increasing_all : OrderedSet.Increasing Category.all := by
  unfold OrderedSet.Increasing
  decide

theorem mem_all (category : Category) : category ∈ Category.all := by
  cases category <;> decide

/-- The governed categories that are violated stand in the order of all
categories, each of them once. -/
theorem filter_violatedCategories (report : Report) :
    report.violatedCategories.filter Category.isGoverned =
      Category.all.filter (report.IsViolated ·) := by
  have violatedIncreasing :
      OrderedSet.Increasing report.violatedCategories :=
    OrderedSet.increasing_ofList _
  refine
    OrderedSet.Increasing.eq_of_mem_iff (violatedIncreasing.filter _)
      (increasing_all.filter _) fun category => ?_
  rw [List.mem_filter, List.mem_filter, mem_violatedCategories_iff,
    decide_eq_true_iff, IsViolated, and_comm]
  exact (and_iff_right (mem_all category)).symm

theorem hint_of_not_governed
    (ungoverned : ¬ category.isGoverned = true) :
    hint category = "" := by
  cases category with
  | other => rfl
  | _ => exact absurd rfl ungoverned

theorem join_hint_filter (categories : List Category) :
    String.join ((categories.filter Category.isGoverned).map hint) =
      String.join (categories.map hint) := by
  induction categories with
  | nil => rfl
  | cons first rest inductionHypothesis =>
      by_cases governed : first.isGoverned = true
      · rw [List.filter_cons_of_pos governed, List.map_cons, List.map_cons,
          String.join_cons, String.join_cons, inductionHypothesis]
      · rw [List.filter_cons_of_neg governed, List.map_cons,
          String.join_cons, hint_of_not_governed governed,
          String.empty_append, inductionHypothesis]

theorem hints_eq (report : Report) :
    report.hints =
      String.join
        ((Category.all.filter (report.IsViolated ·)).map hint) := by
  rw [hints, ← join_hint_filter, filter_violatedCategories]

/-- A block is an empty line, a title and the header that is expected. -/
theorem hint_of_governed (governed : category.isGoverned = true) :
    ∃ text,
      Header.expectedText? category true = some text ∧
        hint category =
          "\n" ++ hintTitle category ++ "\n" ++ text ++ "\n" := by
  obtain ⟨text, expected, _⟩ := Header.exists_expectedText governed
  refine ⟨text, expected, ?_⟩
  simp [hint, expected, unlines, String.append_assoc]

theorem title_mem_hintLines_iff
    (governed : category.isGoverned = true) {shown : Category} :
    (hintTitle category).toList ∈ hintLines shown ↔ shown = category := by
  constructor
  · intro listed
    by_contra different
    exact title_notMem_hintLines different listed
  · rintro rfl
    rw [hintLines, if_pos governed]
    exact List.mem_cons_of_mem _ List.mem_cons_self

/-- The title of a category is a line of the hints when the category is
violated, and only then. -/
theorem title_mem_lines_hints_iff
    (governed : category.isGoverned = true) :
    (hintTitle category).toList ∈ Text.lines report.hints.toList ↔
      report.IsViolated category := by
  rw [hints, lines_hints, List.mem_flatMap]
  simp only [title_mem_hintLines_iff governed, exists_eq_right,
    mem_violatedCategories_iff]
  exact (and_iff_right governed).symm

theorem hints_congr
    {left right : Report}
    (same :
      ∀ category, left.IsViolated category ↔ right.IsViolated category) :
    left.hints = right.hints := by
  rw [hints_eq, hints_eq]
  simp only [same]

theorem isViolated_iff_of_hints_eq
    {left right : Report} (same : left.hints = right.hints)
    (category : Category) :
    left.IsViolated category ↔ right.IsViolated category := by
  by_cases governed : category.isGoverned = true
  · rw [← title_mem_lines_hints_iff governed, same,
      title_mem_lines_hints_iff governed]
  · have none (report : Report) : ¬ report.IsViolated category :=
      fun violated => governed violated.1
    exact iff_of_false (none left) (none right)

/-- The report with its governed violations only. -/
def governedPart (report : Report) : Report :=
  { report with
    violations := report.violations.filter (·.category ≠ Category.other) }

theorem isViolated_governedPart_iff :
    report.governedPart.IsViolated category ↔ report.IsViolated category := by
  unfold IsViolated
  refine and_congr_right fun governed => ?_
  have notOther := Category.isGoverned_iff.1 governed
  simp only [governedPart, List.mem_filter, decide_eq_true_iff]
  constructor
  · rintro ⟨violation, ⟨member, _⟩, same⟩
    exact ⟨violation, member, same⟩
  · rintro ⟨violation, member, same⟩
    exact ⟨violation, ⟨member, same ▸ notOther⟩, same⟩

theorem hints_eq_empty
    (noneGoverned :
      ∀ violation ∈ report.violations, violation.category = .other) :
    report.hints = "" := by
  have noneViolated (category : Category) : ¬ report.IsViolated category := by
    rintro ⟨governed, violation, member, rfl⟩
    exact Category.isGoverned_iff.1 governed (noneGoverned violation member)
  have noBlocks : Category.all.filter (report.IsViolated ·) = [] := by
    simpa [List.filter_eq_nil_iff] using fun category _ =>
      noneViolated category
  rw [hints_eq, noBlocks]
  rfl

/-- Two reports have the same hints exactly when the same governed categories
are violated.  The hints are one block for each of these in the order of all
categories; a block is an empty line, the title and the header with everything
that may stand in it.  Violations of no governed category change nothing, and
without others there are no hints. -/
theorem hints_by_categories :
    (∀ left right : Report,
      left.hints = right.hints ↔
        ∀ category, left.IsViolated category ↔ right.IsViolated category) ∧
    (∀ report : Report,
      report.hints =
          String.join
            ((Category.all.filter (report.IsViolated ·)).map hint) ∧
        report.governedPart.hints = report.hints ∧
        ((∀ violation ∈ report.violations, violation.category = .other) →
          report.hints = "")) ∧
    ∀ category : Category, category.isGoverned = true →
      ∃ text,
        Header.expectedText? category true = some text ∧
          hint category =
            "\n" ++ hintTitle category ++ "\n" ++ text ++ "\n" := by
  refine ⟨fun left right => ?_, fun report => ?_, fun category => ?_⟩
  · exact ⟨isViolated_iff_of_hints_eq, hints_congr⟩
  · exact
      ⟨hints_eq report, hints_congr fun _ => isViolated_governedPart_iff,
        hints_eq_empty⟩
  · exact hint_of_governed

/-- A report with violations of these categories. -/
def reportOfCategories (categories : List Category) : Report :=
  ofViolations (Path.ofString ".") categories.length
    (categories.map fun category => ⟨Path.ofString "lib/a", category⟩)

/-- Neither the order of the violations nor their number matters, but a further
category does. -/
theorem reportOfCategories_hints :
    (reportOfCategories [.script, .compiledSource, .other]).hints =
        (reportOfCategories
          [.compiledSource, .compiledSource, .script]).hints ∧
      (reportOfCategories [.script, .compiledSource, .other]).hints ≠
        (reportOfCategories
          [.script, .buildConfig, .compiledSource]).hints := by
  obtain ⟨sameIff, _⟩ := hints_by_categories
  rw [ne_eq, sameIff, sameIff]
  constructor
  · intro category
    cases category <;> decide
  · intro same
    have further := same .buildConfig
    revert further
    decide

end HeaderAudit.Report
