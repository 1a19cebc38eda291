import HeaderAudit.Proofs.Wildcard.Acceptance
import HeaderAudit.Proofs.Wildcard.Reading

namespace HeaderAudit.Wildcard

/-- The pattern has no special character. -/
def IsPlain (pattern : List Char) : Prop :=
  ∀ char ∈ pattern, ¬ IsSpecial char

instance (pattern : List Char) : Decidable (IsPlain pattern) :=
  inferInstanceAs (Decidable (∀ char ∈ pattern, _))

theorem isPlain_cons_iff {char : Char} {rest : List Char} :
    IsPlain (char :: rest) ↔ ¬ IsSpecial char ∧ IsPlain rest :=
  List.forall_mem_cons

/-- A plain pattern is read as literals, one for each character. -/
theorem reads_of_isPlain {pattern : List Char} (plain : IsPlain pattern) :
    ∀ begins : Bool, Reads begins pattern (pattern.map .literal) := by
  induction pattern with
  | nil => exact fun _ => .atEnd
  | cons char rest inductionHypothesis =>
      intro begins
      obtain ⟨ordinary, restPlain⟩ := isPlain_cons_iff.1 plain
      exact .literal ordinary (inductionHypothesis restPlain _)

theorem parse_of_isPlain {pattern : List Char} (plain : IsPlain pattern) :
    parse pattern = .ok (pattern.map .literal) :=
  parse_eq_ok_iff.2 (reads_of_isPlain plain true)

/-- The only reading of a pattern that begins with an ordinary character has
that character as its first token. -/
theorem reads_ordinary_cons_iff
    {begins : Bool} {char : Char} {rest : List Char} {tokens : List Token}
    (ordinary : ¬ IsSpecial char) :
    Reads begins (char :: rest) tokens ↔
      ∃ later, tokens = .literal char :: later ∧
        Reads (char == '/') rest later := by
  constructor
  · intro reads
    cases reads with
    | literal _ laterReads => exact ⟨_, rfl, laterReads⟩
    | anyChar => exact absurd (by decide) ordinary
    | anyText => exact absurd (by decide) ordinary
    | remainder => exact absurd (by decide) ordinary
    | anyComponents => exact absurd (by decide) ordinary
    | ofClass => exact absurd (by decide) ordinary
    | complement => exact absurd (by decide) ordinary
  · rintro ⟨later, rfl, laterReads⟩
    exact .literal ordinary laterReads

/-- A dot and a slash may be written before a pattern, which is then read as
it was without them. -/
theorem parse_here_cons_iff {pattern : List Char} {tokens : List Token} :
    parse ('.' :: '/' :: pattern) = .ok tokens ↔
      ∃ later, tokens = .literal '.' :: .literal '/' :: later ∧
        parse pattern = .ok later := by
  have dotOrdinary : ¬ IsSpecial '.' := by decide
  have slashOrdinary : ¬ IsSpecial '/' := by decide
  simp only [parse_eq_ok_iff, reads_ordinary_cons_iff dotOrdinary,
    reads_ordinary_cons_iff slashOrdinary]
  constructor
  · rintro ⟨_, rfl, later, rfl, laterReads⟩
    exact ⟨later, rfl, laterReads⟩
  · rintro ⟨later, rfl, laterReads⟩
    exact ⟨_, rfl, later, rfl, laterReads⟩

/-- A pattern without an opening bracket and without two stars in a row can be
read. -/
theorem exists_reads_of_harmless
    {pattern : List Char} (noOpen : '[' ∉ pattern)
    (noStars : ¬ ['*', '*'] <:+: pattern) :
    ∀ begins : Bool, ∃ tokens, Reads begins pattern tokens := by
  induction pattern with
  | nil => exact fun _ => ⟨[], .atEnd⟩
  | cons char rest inductionHypothesis =>
      intro begins
      have restNoOpen : '[' ∉ rest :=
        fun member => noOpen (List.mem_cons_of_mem char member)
      have restNoStars : ¬ ['*', '*'] <:+: rest :=
        fun stars => noStars (List.infix_cons stars)
      have restReads := inductionHypothesis restNoOpen restNoStars
      by_cases special : IsSpecial char
      · rcases special with rfl | rfl | rfl
        · obtain ⟨tokens, reads⟩ := restReads false
          exact ⟨_, .anyChar reads⟩
        · have lone : rest.head? ≠ some '*' := by
            intro star
            obtain ⟨tail, rfl⟩ := List.head?_eq_some_iff.1 star
            exact noStars (List.prefix_append ['*', '*'] tail).isInfix
          obtain ⟨tokens, reads⟩ := restReads false
          exact ⟨_, .anyText lone reads⟩
        · exact absurd List.mem_cons_self noOpen
      · obtain ⟨tokens, reads⟩ := restReads (char == '/')
        exact ⟨_, .literal special reads⟩

theorem matches_literal_cons_iff
    {char : Char} {tokens : List Token} {text : List Char} :
    Matches (.literal char :: tokens) text ↔
      ∃ rest, text = char :: rest ∧ Matches tokens rest := by
  have single : (Token.literal char).IsSingle := trivial
  rw [matches_single_iff single]
  constructor
  · rintro ⟨head, rest, rfl, takes, restMatches⟩
    have same : head = char := beq_iff_eq.1 takes
    exact ⟨rest, by rw [same], restMatches⟩
  · rintro ⟨rest, rfl, restMatches⟩
    exact ⟨char, rest, rfl, beq_self_eq_true char, restMatches⟩

/-- Literals match the text that they spell. -/
theorem matches_literals_iff {literals text : List Char} :
    Matches (literals.map .literal) text ↔ text = literals := by
  induction literals generalizing text with
  | nil => exact matches_nil_iff
  | cons char rest inductionHypothesis =>
      rw [List.map_cons, matches_literal_cons_iff]
      simp only [inductionHypothesis, exists_eq_right]

end HeaderAudit.Wildcard
