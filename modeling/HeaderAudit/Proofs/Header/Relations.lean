import HeaderAudit.Proofs.Header
import HeaderAudit.Proofs.Text.Utf8

/-! The first two characters of a content tell which header it can have, and a
header stays when the content grows. -/

namespace HeaderAudit

namespace Header

/-- The first two characters of the texts that are expected of a category. -/
def openings : Category → List (List Char)
  | .compiledSource => [['/', '*']]
  | .header => [['#', 'p']]
  | .script => [['#', '!'], ['#', '\n']]
  | .buildConfig => [['#', '\n']]
  | .other => []

theorem length_of_mem_openings
    {category : Category} {opening : List Char}
    (member : opening ∈ openings category) :
    opening.length = 2 := by
  revert opening
  cases category <;> decide

/-- The categories whose openings exclude each other. -/
def exclusiveCategories : List Category :=
  [.compiledSource, .header, .script]

theorem eq_of_common_opening :
    ∀ left ∈ exclusiveCategories, ∀ right ∈ exclusiveCategories,
      ∀ opening ∈ openings left, opening ∈ openings right → left = right := by
  decide

theorem take_notice_block :
    CommentStyle.block.notice.toList.take 2 = ['/', '*'] := by
  rw [CommentStyle.notice, String.toList_ofList]
  rfl

theorem take_notice_line :
    CommentStyle.line.notice.toList.take 2 = ['#', '\n'] := by
  rw [CommentStyle.notice, String.toList_ofList]
  rfl

theorem opening_of_expectedText?
    {category : Category} {withPreamble : Bool} {text : String}
    (expected : expectedText? category withPreamble = some text) :
    text.toList.take 2 ∈ openings category := by
  cases category with
  | compiledSource =>
      rw [← Option.some.inj expected, take_notice_block]
      exact List.mem_cons_self
  | header =>
      rw [← Option.some.inj expected, String.toList_append,
        String.toList_append]
      exact List.mem_cons_self
  | script =>
      cases withPreamble with
      | true =>
          rw [← Option.some.inj expected, String.toList_append,
            String.toList_append, String.toList_append, String.toList_append]
          exact List.mem_cons_self
      | false =>
          rw [← Option.some.inj expected, take_notice_line]
          exact List.mem_cons_of_mem _ List.mem_cons_self
  | buildConfig =>
      rw [← Option.some.inj expected, take_notice_line]
      exact List.mem_cons_self
  | other => cases expected

end Header

namespace Category

open Header

variable {category : Category} {content : List Char}

/-- A content with a header begins with two characters of it. -/
theorem IsHeaded.opening (headed : category.IsHeaded content) :
    content.take 2 ∈ openings category := by
  obtain ⟨withPreamble, text, expected, rest, rfl⟩ := headed
  have opens := opening_of_expectedText? expected
  have long : 2 ≤ text.toList.length := by
    have taken := length_of_mem_openings opens
    rw [List.length_take] at taken
    omega
  rwa [List.take_append_of_le_length long]

theorem admits_iff_isHeaded
    (governed : category.isGoverned = true) :
    category.admits content = true ↔ category.IsHeaded content := by
  rw [admits_iff]
  exact forall_prop_of_true governed

/-- Two exclusive categories do not admit one content. -/
theorem eq_of_admits
    {left right : Category}
    (leftExclusive : left ∈ exclusiveCategories)
    (rightExclusive : right ∈ exclusiveCategories)
    (leftAdmits : left.admits content = true)
    (rightAdmits : right.admits content = true) :
    left = right := by
  have governed :
      ∀ category ∈ exclusiveCategories, category.isGoverned = true := by
    decide
  have leftHeaded :=
    (admits_iff_isHeaded (governed left leftExclusive)).1 leftAdmits
  have rightHeaded :=
    (admits_iff_isHeaded (governed right rightExclusive)).1 rightAdmits
  exact
    eq_of_common_opening left leftExclusive right rightExclusive _
      leftHeaded.opening rightHeaded.opening

/-- The preamble of a script and the notice behind it. -/
def scriptHeader : List Char :=
  interpreterLine.toList ++ '\n' :: encodingLine.toList ++
    '\n' :: CommentStyle.line.notice.toList

theorem expectedText?_script_true :
    ∃ text, expectedText? .script true = some text ∧
      text.toList = scriptHeader := by
  refine ⟨_, rfl, ?_⟩
  simp [scriptHeader, String.toList_append]

theorem isHeaded_script_iff :
    Category.script.IsHeaded content ↔
      Category.buildConfig.IsHeaded content ∨ scriptHeader <+: content := by
  obtain ⟨withPreamble, expected, spelled⟩ := expectedText?_script_true
  constructor
  · rintro ⟨asked, text, isExpected, begins⟩
    cases asked with
    | true =>
        have same : withPreamble = text :=
          Option.some.inj (expected.symm.trans isExpected)
        rw [← same, spelled] at begins
        exact Or.inr begins
    | false => exact Or.inl ⟨false, text, isExpected, begins⟩
  · rintro (⟨_, text, isExpected, begins⟩ | begins)
    · exact ⟨false, text, isExpected, begins⟩
    · exact ⟨true, withPreamble, expected, by rwa [spelled]⟩

/-- Behind the preamble a notice is no build configuration's. -/
theorem not_isHeaded_buildConfig_of_scriptHeader
    (begins : scriptHeader <+: content) :
    ¬ Category.buildConfig.IsHeaded content := by
  intro headed
  have opening := headed.opening
  obtain ⟨rest, rfl⟩ := begins
  have other : (scriptHeader ++ rest).take 2 = ['#', '!'] := rfl
  rw [other] at opening
  revert opening
  decide

theorem IsHeaded.append
    (headed : category.IsHeaded content) (more : List Char) :
    category.IsHeaded (content ++ more) := by
  obtain ⟨withPreamble, text, expected, begins⟩ := headed
  exact
    ⟨withPreamble, text, expected,
      begins.trans (List.prefix_append content more)⟩

/-- The content is at least as long as each text that is expected of the
category, in characters or in bytes. -/
def IsLongEnough (category : Category) (content : List Char) : Prop :=
  (∀ withPreamble text, expectedText? category withPreamble = some text →
    text.toList.length ≤ content.length) ∨
  ∀ withPreamble text, expectedText? category withPreamble = some text →
    (Utf8.encode text.toList).length ≤ (Utf8.encode content).length

theorem IsLongEnough.isHeaded_of_append
    (long : category.IsLongEnough content) {more : List Char}
    (headed : category.IsHeaded (content ++ more)) :
    category.IsHeaded content := by
  obtain ⟨withPreamble, text, expected, begins⟩ := headed
  refine ⟨withPreamble, text, expected, ?_⟩
  have contentBegins : content <+: content ++ more :=
    List.prefix_append content more
  rcases long with inCharacters | inBytes
  · exact
      List.prefix_of_prefix_length_le begins contentBegins
        (inCharacters withPreamble text expected)
  · have bytesBegin := Utf8.encode_prefix_encode_iff.2 begins
    have contentBytesBegin := Utf8.encode_prefix_encode_iff.2 contentBegins
    exact
      Utf8.encode_prefix_encode_iff.1 <|
        List.prefix_of_prefix_length_le bytesBegin contentBytesBegin
          (inBytes withPreamble text expected)

/-- No content is admitted as two of a compiled source, a header and a script.
What is admitted as a build configuration is admitted as a script, and only the
preamble makes the difference.  A content that is admitted is admitted with
more behind it, and one that is long enough is not admitted for what is behind
it. -/
theorem admits_relations (content more : List Char) :
    (∀ left ∈ exclusiveCategories, ∀ right ∈ exclusiveCategories,
      left.admits content = true → right.admits content = true →
        left = right) ∧
    (Category.buildConfig.admits content = true →
      Category.script.admits content = true) ∧
    (Category.script.admits content = true ∧
        Category.buildConfig.admits content = false ↔
      scriptHeader <+: content) ∧
    ∀ category : Category,
      (category.admits content = true →
        category.admits (content ++ more) = true) ∧
      (category.IsLongEnough content →
        category.admits (content ++ more) = true →
          category.admits content = true) := by
  have script : Category.script.isGoverned = true := rfl
  have buildConfig : Category.buildConfig.isGoverned = true := rfl
  refine ⟨?_, ?_, ?_, ?_⟩
  · intro left leftExclusive right rightExclusive
    exact eq_of_admits leftExclusive rightExclusive
  · rw [admits_iff_isHeaded script, admits_iff_isHeaded buildConfig,
      isHeaded_script_iff]
    exact Or.inl
  · rw [← Bool.not_eq_true, admits_iff_isHeaded script,
      admits_iff_isHeaded buildConfig, isHeaded_script_iff]
    constructor
    · rintro ⟨notice | preamble, noNotice⟩
      · exact absurd notice noNotice
      · exact preamble
    · intro preamble
      exact
        ⟨Or.inr preamble, not_isHeaded_buildConfig_of_scriptHeader preamble⟩
  · intro category
    simp only [admits_iff]
    constructor
    · intro headed governed
      exact (headed governed).append more
    · intro long headed governed
      exact long.isHeaded_of_append (headed governed)

/-- The preamble and the notice alone are a script and neither a build
configuration nor a compiled source. -/
theorem scriptHeader_admits :
    Category.script.admits scriptHeader = true ∧
      Category.buildConfig.admits scriptHeader = false ∧
      Category.compiledSource.admits scriptHeader = false := by
  obtain ⟨exclusive, _, preambleOnly, _⟩ := admits_relations scriptHeader []
  obtain ⟨script, noBuildConfig⟩ := preambleOnly.2 (List.prefix_refl _)
  refine ⟨script, noBuildConfig, ?_⟩
  rw [← Bool.not_eq_true]
  intro source
  have same :=
    exclusive .compiledSource (by decide) .script (by decide) source script
  cases same

end Category

end HeaderAudit
