import HeaderAudit.Header
import Mathlib.Data.List.Basic

namespace HeaderAudit

namespace Header

theorem opens_required_iff
    {text : String} {rest : List HeaderElement} {content : List Char} :
    opens (.required text :: rest) content = true ↔
      ∃ after, text.toList ++ after = content ∧ opens rest after = true := by
  simp only [opens, HeaderElement.remainders, List.any_eq_true,
    Option.mem_toList, List.isPrefixOf?_eq_some_iff_append_eq]

theorem opens_optional_iff
    {text : String} {rest : List HeaderElement} {content : List Char} :
    opens (.optional text :: rest) content = true ↔
      opens (.required text :: rest) content = true ∨
        opens rest content = true := by
  simp [opens, HeaderElement.remainders, List.any_append]

theorem opens_single_iff {text : String} {content : List Char} :
    opens [.required text] content = true ↔ text.toList <+: content := by
  rw [opens_required_iff]
  simp [opens, List.IsPrefix]

theorem opens_pair_iff {first second : String} {content : List Char} :
    opens [.required first, .required second] content = true ↔
      (first ++ second).toList <+: content := by
  rw [opens_required_iff, String.toList_append]
  constructor
  · intro read
    obtain ⟨after, rfl, opened⟩ := read
    exact List.prefix_append_right_inj _ |>.2 (opens_single_iff.1 opened)
  · intro begins
    obtain ⟨after, rfl⟩ := begins
    refine ⟨second.toList ++ after, (List.append_assoc _ _ _).symm, ?_⟩
    exact opens_single_iff.2 (List.prefix_append _ _)

end Header

/-- The content begins with a text that is expected of the category. -/
def Category.IsHeaded (category : Category) (content : List Char) : Prop :=
  ∃ withPreamble text,
    Header.expectedText? category withPreamble = some text ∧
      text.toList <+: content

open Header in
/-- A governed content is admitted exactly when it begins with an expected
text. -/
theorem Category.admits_iff (category : Category) (content : List Char) :
    category.admits content = true ↔
      (category.isGoverned = true → category.IsHeaded content) := by
  cases category with
  | compiledSource =>
      simp [admits, elements?, opens_single_iff, isGoverned, IsHeaded,
        expectedText?]
  | header =>
      simp [admits, elements?, opens_pair_iff, isGoverned, IsHeaded,
        expectedText?]
  | script =>
      simp [admits, elements?, opens_optional_iff, opens_single_iff,
        opens_pair_iff, isGoverned, IsHeaded, expectedText?]
      exact or_comm
  | buildConfig =>
      simp [admits, elements?, opens_single_iff, isGoverned, IsHeaded,
        expectedText?]
  | other => simp [admits, elements?, isGoverned]

end HeaderAudit
