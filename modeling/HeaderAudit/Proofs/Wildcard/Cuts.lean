import HeaderAudit.Wildcard.Token

/-! A pattern matches a text that can be cut into pieces, one for each token.
This says nothing about how a cut is found; the equations that take the first
token off are what both ways of finding one are compared with. -/

namespace HeaderAudit.Wildcard

/-- Some range lists the character. -/
def Listed (ranges : List Range) (char : Char) : Prop :=
  ∃ range ∈ ranges, range.first ≤ char ∧ char ≤ range.last

/-- The piece of text is one that the token stands for, wherever the token is
in a pattern. -/
def Token.Fits : Token → List Char → Prop
  | .literal char, piece => piece = [char]
  | .anyChar, piece => ∃ char, piece = [char] ∧ char ≠ '/'
  | .ofClass false ranges, piece =>
      ∃ char, piece = [char] ∧ char ≠ '/' ∧ Listed ranges char
  | .ofClass true ranges, piece =>
      ∃ char, piece = [char] ∧ char ≠ '/' ∧ ¬ Listed ranges char
  | .anyText, piece => '/' ∉ piece
  | .anyComponents, piece => piece = [] ∨ piece.getLast? = some '/'

/-- Pieces of text, one for each token. -/
inductive Cut : List Token → List (List Char) → Prop
  | none : Cut [] []
  | remainder (piece : List Char) : Cut [.anyComponents] [piece]
  | piece {token : Token} {piece : List Char}
      {tokens : List Token} {pieces : List (List Char)} :
      token.Fits piece → Cut tokens pieces →
      Cut (token :: tokens) (piece :: pieces)

/-- The text can be cut into pieces for the tokens. -/
def Matches (tokens : List Token) (text : List Char) : Prop :=
  ∃ pieces, Cut tokens pieces ∧ pieces.flatten = text

/-- The token stands for single characters. -/
def Token.IsSingle : Token → Prop
  | .anyText => False
  | .anyComponents => False
  | _ => True

/-- After some text without a slash comes what is described. -/
def AfterText (described : List Char → Prop) (text : List Char) : Prop :=
  ∃ piece rest, text = piece ++ rest ∧ '/' ∉ piece ∧ described rest

/-- After some slash of the text comes what is described. -/
def AfterSlash (described : List Char → Prop) (text : List Char) : Prop :=
  ∃ before rest, text = before ++ '/' :: rest ∧ described rest

@[simp]
theorem matches_nil_iff {text : List Char} : Matches [] text ↔ text = [] := by
  constructor
  · rintro ⟨pieces, cut, rfl⟩
    cases cut
    rfl
  · rintro rfl
    exact ⟨[], Cut.none, rfl⟩

theorem matches_remainder (text : List Char) :
    Matches [.anyComponents] text :=
  ⟨[text], Cut.remainder text, by simp⟩

/-- Unless it is a `**` at the end, the first token takes a piece that fits. -/
theorem matches_cons_iff
    {token : Token} {tokens : List Token} {text : List Char}
    (inside : token = .anyComponents → tokens ≠ []) :
    Matches (token :: tokens) text ↔
      ∃ piece rest,
        text = piece ++ rest ∧ token.Fits piece ∧ Matches tokens rest := by
  constructor
  · rintro ⟨pieces, cut, rfl⟩
    cases cut with
    | remainder => exact absurd rfl (inside rfl)
    | @piece _ piece _ pieces fits cut =>
        exact ⟨piece, pieces.flatten, rfl, fits, pieces, cut, rfl⟩
  · rintro ⟨piece, _, rfl, fits, pieces, cut, rfl⟩
    exact ⟨piece :: pieces, Cut.piece fits cut, rfl⟩

theorem matches_anyText_iff {tokens : List Token} {text : List Char} :
    Matches (.anyText :: tokens) text ↔ AfterText (Matches tokens) text :=
  matches_cons_iff nofun

theorem matches_anyComponents_iff
    {tokens : List Token} {text : List Char} (more : tokens ≠ []) :
    Matches (.anyComponents :: tokens) text ↔
      Matches tokens text ∨ AfterSlash (Matches tokens) text := by
  rw [matches_cons_iff fun _ => more]
  constructor
  · rintro ⟨piece, rest, rfl, empty | ends, restMatches⟩
    · subst empty
      exact Or.inl restMatches
    · obtain ⟨before, rfl⟩ := List.getLast?_eq_some_iff.1 ends
      exact Or.inr ⟨before, rest, by simp, restMatches⟩
  · rintro (whole | ⟨before, rest, rfl, restMatches⟩)
    · exact ⟨[], text, rfl, Or.inl rfl, whole⟩
    · exact ⟨before ++ ['/'], rest, by simp, Or.inr (by simp), restMatches⟩

variable {described : List Char → Prop} {char : Char} {rest : List Char}

@[simp]
theorem afterText_nil_iff : AfterText described [] ↔ described [] := by
  constructor
  · rintro ⟨piece, rest, empty, _, holds⟩
    rw [(List.append_eq_nil_iff.1 empty.symm).2] at holds
    exact holds
  · intro holds
    exact ⟨[], [], rfl, List.not_mem_nil, holds⟩

theorem afterText_cons_iff :
    AfterText described (char :: rest) ↔
      described (char :: rest) ∨
        char ≠ '/' ∧ AfterText described rest := by
  constructor
  · rintro ⟨piece, after, cut, noSlash, holds⟩
    cases piece with
    | nil =>
        rw [List.nil_append] at cut
        exact Or.inl (cut ▸ holds)
    | cons head piece =>
        injection cut with sameHead sameRest
        rw [List.mem_cons, not_or] at noSlash
        have notSlash : char ≠ '/' := by
          rw [sameHead]
          exact Ne.symm noSlash.1
        exact Or.inr ⟨notSlash, piece, after, sameRest, noSlash.2, holds⟩
  · rintro (holds | ⟨notSlash, piece, after, rfl, noSlash, holds⟩)
    · exact ⟨[], char :: rest, rfl, List.not_mem_nil, holds⟩
    · have stillNone : '/' ∉ char :: piece := by
        rw [List.mem_cons, not_or]
        exact ⟨Ne.symm notSlash, noSlash⟩
      exact ⟨char :: piece, after, rfl, stillNone, holds⟩

@[simp]
theorem not_afterSlash_nil : ¬ AfterSlash described [] := by
  rintro ⟨before, rest, empty, _⟩
  simp at empty

theorem afterSlash_cons_iff :
    AfterSlash described (char :: rest) ↔
      char = '/' ∧ described rest ∨ AfterSlash described rest := by
  constructor
  · rintro ⟨before, after, cut, holds⟩
    cases before with
    | nil =>
        injection cut with sameHead sameRest
        exact Or.inl ⟨sameHead, sameRest ▸ holds⟩
    | cons head before =>
        injection cut with _ sameRest
        exact Or.inr ⟨before, after, sameRest, holds⟩
  · rintro (⟨rfl, holds⟩ | ⟨before, after, rfl, holds⟩)
    · exact ⟨[], rest, rfl, holds⟩
    · exact ⟨char :: before, after, rfl, holds⟩

end HeaderAudit.Wildcard
