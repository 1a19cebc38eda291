import HeaderAudit.Audit
import HeaderAudit.Proofs.Header
import HeaderAudit.Proofs.Steps

namespace HeaderAudit

namespace Category

/-- The bytes of a governed file are UTF-8. -/
def Decodes (category : Category) (bytes : List UInt8) : Prop :=
  category.isGoverned = true → ∃ content, Utf8.decode bytes = some content

/-- The file is governed, and its content is without the header. -/
def Violates (category : Category) (bytes : List UInt8) : Prop :=
  category.isGoverned = true ∧
    ∃ content,
      Utf8.decode bytes = some content ∧ ¬ category.IsHeaded content

theorem not_violates_of_ungoverned
    {category : Category} {bytes : List UInt8}
    (ungoverned : category.isGoverned = false) :
    ¬ category.Violates bytes := by
  intro violates
  rw [violates.1] at ungoverned
  cases ungoverned

theorem violates_iff_of_decode
    {category : Category} {bytes : List UInt8} {content : List Char}
    (governed : category.isGoverned = true)
    (decoded : Utf8.decode bytes = some content) :
    category.Violates bytes ↔ ¬ category.IsHeaded content := by
  constructor
  · intro violates
    obtain ⟨_, again, decodedAgain, unheaded⟩ := violates
    rw [decoded] at decodedAgain
    cases decodedAgain
    exact unheaded
  · intro unheaded
    exact ⟨governed, content, decoded, unheaded⟩

theorem Violates.decodes
    {category : Category} {bytes : List UInt8}
    (violates : category.Violates bytes) :
    category.Decodes bytes := by
  intro _
  obtain ⟨_, content, decoded, _⟩ := violates
  exact ⟨content, decoded⟩

end Category

variable {path : Path} {category : Category} {bytes : List UInt8}

theorem judge_eq_ok_iff {good : Bool} :
    judge path category bytes = .ok good ↔
      category.Decodes bytes ∧ (good = true ↔ ¬ category.Violates bytes) := by
  unfold judge
  cases governed : category.isGoverned with
  | false =>
      have clean : ¬ category.Violates bytes :=
        Category.not_violates_of_ungoverned governed
      have decodes : category.Decodes bytes := by
        intro claimed
        rw [governed] at claimed
        cases claimed
      simp [clean, decodes, eq_comm]
  | true =>
      cases decoded : Utf8.decode bytes with
      | none =>
          have undecodable : ¬ category.Decodes bytes := by
            intro decodes
            obtain ⟨content, impossible⟩ := decodes governed
            rw [decoded] at impossible
            cases impossible
          simp [undecodable]
      | some content =>
          have decodes : category.Decodes bytes :=
            fun _ => ⟨content, decoded⟩
          have admitted := category.admits_iff content
          rw [Category.violates_iff_of_decode governed decoded, not_not]
          simp only [governed, forall_const] at admitted
          rw [← admitted]
          cases good <;> simp [decodes]

theorem judge_eq_error_iff {failure : Failure} :
    judge path category bytes = .error failure ↔
      ¬ category.Decodes bytes ∧ failure = .notUtf8 path := by
  unfold judge Category.Decodes
  cases governed : category.isGoverned with
  | false => simp
  | true =>
      cases decoded : Utf8.decode bytes with
      | none => simp [eq_comm]
      | some content => simp

namespace FileTree

variable {tree : FileTree} {root : Path}

theorem readCandidate_eq_error_iff {failure : Failure} :
    tree.readCandidate path = .error failure ↔
      ∃ cause,
        tree.read path = .error cause ∧ failure = .unreadable path cause := by
  unfold readCandidate
  rw [mapError_eq_error_iff]
  simp only [eq_comm]

/-- A candidate is examined to its end when it can be read and, if it is
governed, decoded. -/
theorem examine_eq_ok_iff {verdict : Option Violation} :
    tree.examine root path = .ok verdict ↔
      ∃ bytes,
        tree.read (root.join path) = .ok bytes ∧
          (Category.ofPath path).Decodes bytes ∧
            (((Category.ofPath path).Violates bytes ∧
                verdict = some ⟨path, Category.ofPath path⟩) ∨
              (¬ (Category.ofPath path).Violates bytes ∧
                verdict = none)) := by
  unfold examine
  constructor
  · intro examined
    obtain ⟨bytes, read, rest⟩ := bind_eq_ok_iff.1 examined
    obtain ⟨good, judged, given⟩ := bind_eq_ok_iff.1 rest
    obtain ⟨decodes, verdictGood⟩ := judge_eq_ok_iff.1 judged
    refine ⟨bytes, mapError_eq_ok_iff.1 read, decodes, ?_⟩
    cases given
    cases good with
    | true => exact Or.inr ⟨verdictGood.1 rfl, rfl⟩
    | false =>
        refine Or.inl ⟨?_, rfl⟩
        by_contra clean
        cases verdictGood.2 clean
  · intro parts
    obtain ⟨bytes, read, decodes, either⟩ := parts
    refine bind_eq_ok_iff.2 ⟨bytes, mapError_eq_ok_iff.2 read, ?_⟩
    rcases either with ⟨violates, same⟩ | ⟨clean, same⟩
    · have judged :
          judge path (Category.ofPath path) bytes = .ok false :=
        judge_eq_ok_iff.2 ⟨decodes, by simp [violates]⟩
      exact bind_eq_ok_iff.2 ⟨false, judged, congrArg _ same.symm⟩
    · have judged :
          judge path (Category.ofPath path) bytes = .ok true :=
        judge_eq_ok_iff.2 ⟨decodes, by simp [clean]⟩
      exact bind_eq_ok_iff.2 ⟨true, judged, congrArg _ same.symm⟩

/-- The only violation that a candidate can be is its own. -/
theorem examine_eq_some_iff {violation : Violation} :
    tree.examine root path = .ok (some violation) ↔
      violation = ⟨path, Category.ofPath path⟩ ∧
        ∃ bytes,
          tree.read (root.join path) = .ok bytes ∧
            (Category.ofPath path).Violates bytes := by
  rw [examine_eq_ok_iff]
  constructor
  · intro examined
    obtain ⟨bytes, readBytes, _, either⟩ := examined
    rcases either with ⟨violates, same⟩ | ⟨_, impossible⟩
    · cases same
      exact ⟨rfl, bytes, readBytes, violates⟩
    · cases impossible
  · intro described
    obtain ⟨same, bytes, readBytes, violates⟩ := described
    rw [same]
    exact
      ⟨bytes, readBytes, violates.decodes, Or.inl ⟨violates, rfl⟩⟩

/-- A candidate that is not examined to its end cannot be read, or is governed
and cannot be decoded. -/
theorem examine_eq_error_iff {failure : Failure} :
    tree.examine root path = .error failure ↔
      (∃ cause,
          tree.read (root.join path) = .error cause ∧
            failure = .unreadable (root.join path) cause) ∨
        ∃ bytes,
          tree.read (root.join path) = .ok bytes ∧
            ¬ (Category.ofPath path).Decodes bytes ∧
              failure = .notUtf8 path := by
  unfold examine
  constructor
  · intro examined
    rcases bind_eq_error_iff.1 examined with unread | ⟨bytes, read, rest⟩
    · exact Or.inl (readCandidate_eq_error_iff.1 unread)
    · right
      rcases bind_eq_error_iff.1 rest with misjudged | ⟨_, _, impossible⟩
      · obtain ⟨undecodable, same⟩ := judge_eq_error_iff.1 misjudged
        exact ⟨bytes, mapError_eq_ok_iff.1 read, undecodable, same⟩
      · cases impossible
  · intro either
    rcases either with unread | ⟨bytes, read, undecodable, same⟩
    · exact
        bind_eq_error_iff.2 (Or.inl (readCandidate_eq_error_iff.2 unread))
    · have misjudged := judge_eq_error_iff.2 ⟨undecodable, same⟩
      exact
        bind_eq_error_iff.2
          (Or.inr
            ⟨bytes, mapError_eq_ok_iff.2 read,
              bind_eq_error_iff.2 (Or.inl misjudged)⟩)

end FileTree

end HeaderAudit
