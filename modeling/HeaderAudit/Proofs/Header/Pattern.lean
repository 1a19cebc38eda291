import HeaderAudit.Proofs.Header

/-! A second description of a header, as a pattern that is searched for
anywhere in a content, with an anchor that holds at the very beginning only. It
agrees with the elements and with the texts that a person is shown. -/

namespace HeaderAudit

namespace Header

/-- A pattern for a piece of a content. -/
inductive Pattern where
  /-- The beginning of the content, which takes no text. -/
  | anchor
  | newline
  /-- Exactly this text. -/
  | literal (text : String)
  | sequence (first second : Pattern)
  | optional (part : Pattern)
  deriving DecidableEq, Repr

/-- The pattern takes the piece of a content between what stands before it and
what stands after it. -/
inductive Pattern.Takes :
    Pattern → List Char → List Char → List Char → Prop
  | anchor {after : List Char} : Takes .anchor [] [] after
  | newline {before after : List Char} : Takes .newline before ['\n'] after
  | literal {text : String} {before after : List Char} :
      Takes (.literal text) before text.toList after
  | sequence {first second : Pattern}
      {before firstPiece secondPiece after : List Char} :
      Takes first before firstPiece (secondPiece ++ after) →
      Takes second (before ++ firstPiece) secondPiece after →
      Takes (.sequence first second) before (firstPiece ++ secondPiece) after
  | skipped {part : Pattern} {before after : List Char} :
      Takes (.optional part) before [] after
  | present {part : Pattern} {before piece after : List Char} :
      Takes part before piece after →
      Takes (.optional part) before piece after

/-- The pattern takes some piece of the content. -/
def Pattern.IsFoundIn (pattern : Pattern) (content : List Char) : Prop :=
  ∃ before piece after,
    before ++ piece ++ after = content ∧ pattern.Takes before piece after

/-- The pattern of a category that requires a header. -/
def pattern? : Category → Option Pattern
  | .compiledSource =>
      some (.sequence .anchor (.literal CommentStyle.block.notice))
  | .header =>
      some <|
        .sequence .anchor <|
          .sequence (.literal includeOnceLine) <|
            .sequence .newline (.literal CommentStyle.block.notice)
  | .script =>
      some <|
        .sequence .anchor <|
          .sequence
            (.optional <|
              .sequence (.literal interpreterLine) <|
                .sequence .newline <|
                  .sequence (.literal encodingLine) .newline)
            (.literal CommentStyle.line.notice)
  | .buildConfig =>
      some (.sequence .anchor (.literal CommentStyle.line.notice))
  | .other => none

namespace Pattern

variable {before piece after content : List Char}

@[simp]
theorem takes_anchor_iff :
    anchor.Takes before piece after ↔ before = [] ∧ piece = [] := by
  constructor
  · rintro ⟨⟩
    exact ⟨rfl, rfl⟩
  · rintro ⟨rfl, rfl⟩
    exact .anchor

@[simp]
theorem takes_newline_iff :
    newline.Takes before piece after ↔ piece = ['\n'] := by
  constructor
  · rintro ⟨⟩
    rfl
  · rintro rfl
    exact .newline

@[simp]
theorem takes_literal_iff {text : String} :
    (literal text).Takes before piece after ↔ piece = text.toList := by
  constructor
  · rintro ⟨⟩
    rfl
  · rintro rfl
    exact .literal

@[simp]
theorem takes_sequence_iff {first second : Pattern} :
    (sequence first second).Takes before piece after ↔
      ∃ firstPiece secondPiece,
        piece = firstPiece ++ secondPiece ∧
          first.Takes before firstPiece (secondPiece ++ after) ∧
          second.Takes (before ++ firstPiece) secondPiece after := by
  constructor
  · intro takes
    cases takes with
    | sequence firstTakes secondTakes =>
        exact ⟨_, _, rfl, firstTakes, secondTakes⟩
  · rintro ⟨firstPiece, secondPiece, rfl, firstTakes, secondTakes⟩
    exact .sequence firstTakes secondTakes

@[simp]
theorem takes_optional_iff {part : Pattern} :
    (optional part).Takes before piece after ↔
      piece = [] ∨ part.Takes before piece after := by
  constructor
  · intro takes
    cases takes with
    | skipped => exact Or.inl rfl
    | present partTakes => exact Or.inr partTakes
  · rintro (rfl | partTakes)
    · exact .skipped
    · exact .present partTakes

/-- A pattern that takes nothing but one text. -/
def Quotes (pattern : Pattern) (text : String) : Prop :=
  ∀ before piece after,
    pattern.Takes before piece after ↔ piece = text.toList

theorem Quotes.newline : Pattern.newline.Quotes "\n" := by
  intro before piece after
  exact takes_newline_iff

theorem Quotes.literal (text : String) : (Pattern.literal text).Quotes text := by
  intro before piece after
  exact takes_literal_iff

theorem Quotes.sequence
    {first second : Pattern} {firstText secondText : String}
    (firstQuotes : first.Quotes firstText)
    (secondQuotes : second.Quotes secondText) :
    (Pattern.sequence first second).Quotes (firstText ++ secondText) := by
  intro before piece after
  rw [takes_sequence_iff, String.toList_append]
  constructor
  · rintro ⟨firstPiece, secondPiece, rfl, firstTakes, secondTakes⟩
    rw [(firstQuotes _ _ _).1 firstTakes, (secondQuotes _ _ _).1 secondTakes]
  · rintro rfl
    exact
      ⟨firstText.toList, secondText.toList, rfl, (firstQuotes _ _ _).2 rfl,
        (secondQuotes _ _ _).2 rfl⟩

/-- Behind the anchor, a pattern is found exactly at the beginning. -/
theorem isFoundIn_anchored_iff {pattern : Pattern} :
    (sequence .anchor pattern).IsFoundIn content ↔
      ∃ piece after, piece ++ after = content ∧
        pattern.Takes [] piece after := by
  constructor
  · rintro ⟨before, _, after, rfl, takes⟩
    obtain ⟨_, piece, rfl, anchored, takes⟩ := takes_sequence_iff.1 takes
    obtain ⟨rfl, rfl⟩ := takes_anchor_iff.1 anchored
    exact ⟨piece, after, rfl, takes⟩
  · rintro ⟨piece, after, rfl, takes⟩
    exact ⟨[], piece, after, rfl, .sequence .anchor takes⟩

theorem isFoundIn_iff_of_quotes
    {pattern : Pattern} {text : String} (quotes : pattern.Quotes text) :
    (sequence .anchor pattern).IsFoundIn content ↔
      text.toList <+: content := by
  rw [isFoundIn_anchored_iff]
  constructor
  · rintro ⟨piece, after, rfl, takes⟩
    rw [(quotes _ _ _).1 takes]
    exact List.prefix_append _ _
  · rintro ⟨after, rfl⟩
    exact ⟨text.toList, after, rfl, (quotes _ _ _).2 rfl⟩

/-- A part that may be left out is looked for as a whole or not at all. -/
theorem isFoundIn_optional_iff
    {part pattern : Pattern} :
    (sequence .anchor (sequence (optional part) pattern)).IsFoundIn content ↔
      (sequence .anchor pattern).IsFoundIn content ∨
        (sequence .anchor (sequence part pattern)).IsFoundIn content := by
  simp only [isFoundIn_anchored_iff, takes_sequence_iff, takes_optional_iff]
  constructor
  · rintro ⟨_, after, rfl, first, piece, rfl, rfl | partTakes, takes⟩
    · exact Or.inl ⟨piece, after, rfl, takes⟩
    · exact
        Or.inr ⟨first ++ piece, after, rfl, first, piece, rfl, partTakes, takes⟩
  · rintro (⟨piece, after, rfl, takes⟩ |
      ⟨_, after, rfl, first, piece, rfl, partTakes, takes⟩)
    · exact ⟨piece, after, rfl, [], piece, rfl, Or.inl rfl, takes⟩
    · exact
        ⟨first ++ piece, after, rfl, first, piece, rfl, Or.inr partTakes,
          takes⟩

end Pattern

open Pattern in
theorem isFoundIn_iff_isHeaded
    {category : Category} {pattern : Pattern}
    (required : pattern? category = some pattern) (content : List Char) :
    pattern.IsFoundIn content ↔ category.IsHeaded content := by
  unfold Category.IsHeaded
  cases category with
  | compiledSource =>
      cases required
      rw [isFoundIn_iff_of_quotes (.literal _)]
      simp [expectedText?]
  | header =>
      cases required
      rw [isFoundIn_iff_of_quotes
        (.sequence (.literal _) (.sequence .newline (.literal _)))]
      simp [expectedText?]
  | script =>
      cases required
      have preamble :=
        (Quotes.literal interpreterLine).sequence <|
          Quotes.newline.sequence <|
            (Quotes.literal encodingLine).sequence .newline
      have notice := Quotes.literal CommentStyle.line.notice
      rw [isFoundIn_optional_iff, isFoundIn_iff_of_quotes notice,
        isFoundIn_iff_of_quotes (preamble.sequence notice)]
      simp [expectedText?]
  | buildConfig =>
      cases required
      rw [isFoundIn_iff_of_quotes (.literal _)]
      simp [expectedText?]
  | other => cases required

theorem isGoverned_iff_exists_pattern (category : Category) :
    category.isGoverned = true ↔ ∃ pattern, pattern? category = some pattern := by
  cases category <;> simp [Category.isGoverned, pattern?]

end Header

open Header in
/-- A content is admitted exactly when its category needs no header, when it
begins with the text that is expected of its category, or when it is a script
that begins with that text behind the preamble; and this is to say that the
pattern of its category is found in it. -/
theorem Category.admits_iff_begins
    (category : Category) (content : List Char) :
    (category.admits content = true ↔
      category = .other ∨
        (∃ text, expectedText? category false = some text ∧
          text.toList <+: content) ∨
        (category = .script ∧
          ∃ text, expectedText? category true = some text ∧
            text.toList <+: content)) ∧
    (category.admits content = true ↔
      ∀ pattern, pattern? category = some pattern →
        pattern.IsFoundIn content) := by
  constructor
  · rw [admits_iff, IsHeaded]
    cases category <;> simp [isGoverned, expectedText?]
  · rw [admits_iff, isGoverned_iff_exists_pattern]
    constructor
    · intro headed pattern required
      rw [isFoundIn_iff_isHeaded required]
      exact headed ⟨pattern, required⟩
    · rintro found ⟨pattern, required⟩
      rw [← isFoundIn_iff_isHeaded required]
      exact found pattern required

end HeaderAudit
