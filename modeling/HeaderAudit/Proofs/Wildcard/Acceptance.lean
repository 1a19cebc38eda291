import HeaderAudit.Proofs.Wildcard.Cuts
import HeaderAudit.Wildcard.Acceptance

/-! `Answers` says that the answers kept for every suffix are those of a
property of texts; each pass turns the answers of one property into those of
the next. -/

namespace HeaderAudit.Wildcard

theorem Token.fits_singleton_iff {token : Token} {char : Char}
    (single : token.IsSingle) :
    token.Fits [char] ↔ token.takes char = true := by
  cases token with
  | literal expected => simp [Fits, takes]
  | anyChar => simp [Fits, takes]
  | ofClass negated ranges =>
      cases negated with
      | false => simp [Fits, takes, Listed, Range.holds]
      | true => simp [Fits, takes, Listed, Range.holds]
  | anyText => exact single.elim
  | anyComponents => exact single.elim

theorem Token.exists_eq_of_fits {token : Token} {piece : List Char}
    (single : token.IsSingle) (fits : token.Fits piece) :
    ∃ char, piece = [char] := by
  cases token with
  | literal expected => exact ⟨expected, fits⟩
  | anyChar =>
      obtain ⟨char, same, _⟩ := fits
      exact ⟨char, same⟩
  | ofClass negated ranges =>
      cases negated <;>
        · obtain ⟨char, same, _⟩ := fits
          exact ⟨char, same⟩
  | anyText => exact single.elim
  | anyComponents => exact single.elim

theorem matches_single_iff
    {token : Token} {tokens : List Token} {text : List Char}
    (single : token.IsSingle) :
    Matches (token :: tokens) text ↔
      ∃ char rest, text = char :: rest ∧
        token.takes char = true ∧ Matches tokens rest := by
  have inside : token = .anyComponents → tokens ≠ [] := by
    rintro rfl
    exact single.elim
  rw [matches_cons_iff inside]
  constructor
  · rintro ⟨piece, rest, rfl, fits, restMatches⟩
    obtain ⟨char, rfl⟩ := token.exists_eq_of_fits single fits
    exact
      ⟨char, rest, rfl, (Token.fits_singleton_iff single).1 fits, restMatches⟩
  · rintro ⟨char, rest, rfl, takes, restMatches⟩
    exact
      ⟨[char], rest, rfl, (Token.fits_singleton_iff single).2 takes,
        restMatches⟩

/-- For every suffix of the text, from the whole text to the empty one, the
answer is that of the property. -/
inductive Answers (property : List Char → Prop) :
    List Char → List Bool → Prop
  | atEnd {answer : Bool} :
      (answer = true ↔ property []) → Answers property [] [answer]
  | next {char : Char} {rest : List Char}
      {answer : Bool} {answers : List Bool} :
      (answer = true ↔ property (char :: rest)) →
      Answers property rest answers →
      Answers property (char :: rest) (answer :: answers)

namespace Answers

variable {property other : List Char → Prop} {text : List Char}
  {answers : List Bool}

theorem congr
    (right : Answers property text answers)
    (same : ∀ suffix, property suffix ↔ other suffix) :
    Answers other text answers := by
  induction right with
  | atEnd answer => exact .atEnd (answer.trans (same []))
  | next answer _ inductionHypothesis =>
      exact .next (answer.trans (same _)) inductionHypothesis

theorem whole (right : Answers property text answers) :
    answers.headD false = true ↔ property text := by
  cases right with
  | atEnd answer => exact answer
  | next answer _ => exact answer

theorem always (text : List Char) :
    Answers (fun _ => True) text (true :: text.map fun _ => true) := by
  induction text with
  | nil => exact .atEnd (iff_of_true rfl trivial)
  | cons char rest inductionHypothesis =>
      exact .next (iff_of_true rfl trivial) inductionHypothesis

theorem either
    {others : List Bool}
    (right : Answers property text answers)
    (otherRight : Answers other text others) :
    Answers (fun suffix => property suffix ∨ other suffix) text
      (answers.zipWith (· || ·) others) := by
  induction right generalizing others with
  | atEnd answer =>
      cases otherRight with
      | atEnd otherAnswer => exact .atEnd (by simp [answer, otherAnswer])
  | next answer _ inductionHypothesis =>
      cases otherRight with
      | next otherAnswer otherRest =>
          exact
            .next (by simp [answer, otherAnswer])
              (inductionHypothesis otherRest)

/-- Whether the text is empty. -/
theorem ofAtEnd (text : List Char) :
    Answers (· = []) text (Wildcard.atEnd text) := by
  induction text with
  | nil => exact .atEnd (iff_of_true rfl rfl)
  | cons char rest inductionHypothesis =>
      exact .next (by simp) inductionHypothesis

theorem afterOne
    (takes : Char → Bool) (right : Answers property text answers) :
    Answers
      (fun suffix => ∃ char rest,
        suffix = char :: rest ∧ takes char = true ∧ property rest)
      text (Wildcard.afterOne takes text answers) := by
  induction right with
  | atEnd => exact .atEnd (by simp)
  | @next char rest _ _ _ restRight inductionHypothesis =>
      apply Answers.next
      · rw [Bool.and_eq_true, restRight.whole]
        constructor
        · intro now
          exact ⟨char, rest, rfl, now⟩
        · rintro ⟨_, _, same, now⟩
          cases same
          exact now
      · exact inductionHypothesis

theorem afterText (right : Answers property text answers) :
    Answers (AfterText property) text
      (Wildcard.afterText text answers) := by
  induction right with
  | atEnd answer => exact .atEnd (answer.trans afterText_nil_iff.symm)
  | next answer _ inductionHypothesis =>
      apply Answers.next
      · rw [Bool.or_eq_true, Bool.and_eq_true, answer,
          inductionHypothesis.whole, bne_iff_ne, afterText_cons_iff]
      · exact inductionHypothesis

theorem afterSlash (right : Answers property text answers) :
    Answers (AfterSlash property) text
      (Wildcard.afterSlash text answers) := by
  induction right with
  | atEnd => exact .atEnd (by simp)
  | next _ restRight inductionHypothesis =>
      apply Answers.next
      · rw [Bool.or_eq_true, Bool.and_eq_true, restRight.whole,
          inductionHypothesis.whole, beq_iff_eq, afterSlash_cons_iff]
      · exact inductionHypothesis

end Answers

theorem answers_acceptedSuffixes (tokens : List Token) (text : List Char) :
    Answers (Matches tokens) text (acceptedSuffixes tokens text) := by
  induction tokens with
  | nil =>
      exact (Answers.ofAtEnd text).congr fun suffix => matches_nil_iff.symm
  | cons token tokens inductionHypothesis =>
      have single (isSingle : token.IsSingle) :
          Answers (Matches (token :: tokens)) text
            (afterOne (fun char => token.takes char) text
              (acceptedSuffixes tokens text)) :=
        (inductionHypothesis.afterOne _).congr fun suffix =>
          (matches_single_iff isSingle).symm
      cases token with
      | literal char => exact single trivial
      | anyChar => exact single trivial
      | ofClass negated ranges => exact single trivial
      | anyText =>
          exact
            inductionHypothesis.afterText.congr fun suffix =>
              matches_anyText_iff.symm
      | anyComponents =>
          cases tokens with
          | nil =>
              exact
                (Answers.always text).congr fun suffix =>
                  iff_of_true trivial (matches_remainder suffix)
          | cons next others =>
              have slashes := inductionHypothesis.afterSlash
              exact
                (inductionHypothesis.either slashes).congr fun suffix =>
                  (matches_anyComponents_iff
                    (List.cons_ne_nil next others)).symm

/-- A pattern accepts exactly the texts that it matches. -/
theorem accepts_iff_matches {tokens : List Token} {text : List Char} :
    accepts tokens text = true ↔ Matches tokens text :=
  (answers_acceptedSuffixes tokens text).whole

end HeaderAudit.Wildcard
