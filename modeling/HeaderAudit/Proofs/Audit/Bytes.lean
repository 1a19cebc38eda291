import HeaderAudit.Proofs.Audit.Verdict
import HeaderAudit.Proofs.Category
import HeaderAudit.Proofs.Text.Malformed

/-! No text has to be put together to know a verdict: a governed file fails
when its bytes encode no text, and else they begin with the bytes of a header
or not. -/

namespace HeaderAudit

/-- The bytes begin with those of a text that is expected of the category. -/
def Category.HeadsBytes (category : Category) (bytes : List UInt8) : Prop :=
  ∃ withPreamble text,
    Header.expectedText? category withPreamble = some text ∧
      Utf8.encode text.toList <+: bytes

namespace Category

theorem headsBytes_encode_iff {category : Category} {text : List Char} :
    category.HeadsBytes (Utf8.encode text) ↔ category.IsHeaded text := by
  simp only [HeadsBytes, IsHeaded, Utf8.encode_prefix_encode_iff]

theorem decodes_iff
    {category : Category} {bytes : List UInt8}
    (governed : category.isGoverned = true) :
    category.Decodes bytes ↔ ∃ text, bytes = Utf8.encode text := by
  simp only [Decodes, governed, forall_const, Utf8.decode_eq_some_iff]

theorem not_violates_encode_iff
    {category : Category} {text : List Char}
    (governed : category.isGoverned = true) :
    ¬ category.Violates (Utf8.encode text) ↔
      category.HeadsBytes (Utf8.encode text) := by
  have decoded := Utf8.decode_eq_some_iff.2 (Eq.refl (Utf8.encode text))
  rw [violates_iff_of_decode governed decoded, not_not, headsBytes_encode_iff]

end Category

/-- An ungoverned file is good whatever its bytes are.  A governed one fails,
under its own path, exactly when its bytes are the encoding of no text, and a
malformed sequence anywhere in them is enough for that; otherwise it is good
exactly when its bytes begin with those of a header of its category. -/
theorem judge_by_bytes
    (path : Path) (category : Category) (bytes : List UInt8) :
    (category = .other → judge path category bytes = .ok true) ∧
    (category ≠ .other →
      (∀ failure,
        judge path category bytes = .error failure ↔
          failure = .notUtf8 path ∧ ∀ text, bytes ≠ Utf8.encode text) ∧
      (∀ before bad after,
        bytes = before ++ bad ++ after → Utf8.IsMalformed bad after →
          judge path category bytes = .error (.notUtf8 path)) ∧
      ∀ good,
        judge path category bytes = .ok good ↔
          (∃ text, bytes = Utf8.encode text) ∧
            (good = true ↔ category.HeadsBytes bytes)) := by
  constructor
  · rintro rfl
    rfl
  intro notOther
  have governed := Category.isGoverned_iff.2 notOther
  have failing (failure : Failure) :
      judge path category bytes = .error failure ↔
        failure = .notUtf8 path ∧ ∀ text, bytes ≠ Utf8.encode text := by
    rw [judge_eq_error_iff, Category.decodes_iff governed, not_exists,
      and_comm]
  refine ⟨failing, ?_, ?_⟩
  · intro before bad after split malformed
    refine (failing _).2 ⟨rfl, fun text encoded => ?_⟩
    exact malformed.ne_encode before text (split.symm.trans encoded)
  · intro good
    rw [judge_eq_ok_iff, Category.decodes_iff governed]
    apply and_congr_right
    rintro ⟨text, rfl⟩
    rw [Category.not_violates_encode_iff governed]

/-- A script that has its notice and half of a pair of code units behind it. -/
def garbledScript : List UInt8 :=
  Utf8.encode CommentStyle.line.notice.toList ++ [0xED, 0xA0, 0x80]

/-- The notice at the beginning does not save the script, and without the three
bytes behind it the script is good. -/
theorem garbledScript_judged :
    judge (Path.ofString "run.py") .script garbledScript =
        .error (.notUtf8 (Path.ofString "run.py")) ∧
      judge (Path.ofString "run.py") .script
          (Utf8.encode CommentStyle.line.notice.toList) =
        .ok true ∧
      judge (Path.ofString "run.txt") .other garbledScript = .ok true := by
  have scripts (bytes : List UInt8) :=
    (judge_by_bytes (Path.ofString "run.py") .script bytes).2 nofun
  refine ⟨?_, ?_, ?_⟩
  · have half : Utf8.IsMalformed [0xED, 0xA0, 0x80] [] :=
      .surrogate (.three (by decide) (by decide) rfl rfl) (by decide)
        (by decide)
    exact
      (scripts garbledScript).2.1 _ _ [] (List.append_nil _).symm half
  · refine ((scripts _).2.2 true).2 ⟨⟨_, rfl⟩, iff_of_true rfl ?_⟩
    exact ⟨false, _, rfl, List.prefix_rfl⟩
  · exact (judge_by_bytes _ .other garbledScript).1 rfl

end HeaderAudit
