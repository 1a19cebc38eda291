import HeaderAudit.Proofs.Steps
import HeaderAudit.Wildcard.Token

/-! The grammar of patterns. Of what was read before, only whether a component
begins there matters, so neither the character before nor the position occurs.
-/

namespace HeaderAudit.Wildcard

/-- Outside of a class the character is no ordinary one. -/
def IsSpecial (char : Char) : Prop :=
  char = '?' ∨ char = '*' ∨ char = '['

instance (char : Char) : Decidable (IsSpecial char) :=
  inferInstanceAs (Decidable (_ ∨ _ ∨ _))

/-- The pattern is read as the tokens from a place where a component begins or
does not begin. -/
inductive Reads : Bool → List Char → List Token → Prop
  | atEnd {begins : Bool} : Reads begins [] []
  | literal
      {begins : Bool} {char : Char} {rest : List Char} {tokens : List Token} :
      ¬ IsSpecial char → Reads (char == '/') rest tokens →
      Reads begins (char :: rest) (.literal char :: tokens)
  | anyChar {begins : Bool} {rest : List Char} {tokens : List Token} :
      Reads false rest tokens →
      Reads begins ('?' :: rest) (.anyChar :: tokens)
  | anyText {begins : Bool} {rest : List Char} {tokens : List Token} :
      rest.head? ≠ some '*' → Reads false rest tokens →
      Reads begins ('*' :: rest) (.anyText :: tokens)
  | remainder : Reads true ['*', '*'] [.anyComponents]
  | anyComponents {rest : List Char} {tokens : List Token} :
      Reads true rest tokens →
      Reads true ('*' :: '*' :: '/' :: rest) (.anyComponents :: tokens)
  | ofClass
      {begins : Bool} {first : Char} {others rest : List Char}
      {tokens : List Token} :
      first ≠ '!' → ']' ∉ others → Reads false rest tokens →
      Reads begins ('[' :: first :: (others ++ ']' :: rest))
        (.ofClass false (rangesOf (first :: others)) :: tokens)
  | complement
      {begins : Bool} {first : Char} {others rest : List Char}
      {tokens : List Token} :
      ']' ∉ others → Reads false rest tokens →
      Reads begins ('[' :: '!' :: first :: (others ++ ']' :: rest))
        (.ofClass true (rangesOf (first :: others)) :: tokens)

theorem head?_ne_star
    {rest : List Char} (noStar : ∀ tail, rest = '*' :: tail → False) :
    rest.head? ≠ some '*' := by
  intro star
  obtain ⟨tail, isStar⟩ := List.head?_eq_some_iff.1 star
  exact noStar tail isStar

theorem tokensFrom_of_inside
    {before : Option Char} {position : Nat} {rest : List Char}
    (notThree : ∀ tail, rest = '*' :: tail → False)
    (inside : ¬ startsComponent before = true) :
    tokensFrom before position ('*' :: '*' :: rest) =
      .error ⟨position - 1, .partialComponent⟩ := by
  cases rest with
  | nil => rw [tokensFrom, if_neg inside]
  | cons head tail =>
      by_cases isSlash : head = '/'
      · subst isSlash
        rw [tokensFrom, if_neg inside]
      · rw [tokensFrom, if_neg inside]
        · exact notThree
        · exact nofun
        · rintro _ ⟨⟩
          exact isSlash rfl

/-- A character that is not special is read as itself. -/
theorem tokensFrom_of_ordinary
    {before : Option Char} {position : Nat} {char : Char} {rest : List Char}
    (ordinary : ¬ IsSpecial char) :
    tokensFrom before position (char :: rest) =
      (.literal char :: ·) <$> tokensFrom (some char) (position + 1) rest := by
  have notAny : char ≠ '?' := fun same => ordinary (Or.inl same)
  have notText : char ≠ '*' := fun same => ordinary (Or.inr (Or.inl same))
  have notOpen : char ≠ '[' := fun same => ordinary (Or.inr (Or.inr same))
  rw [tokensFrom]
  · exact notAny
  · exact fun _ same _ => notText same
  · exact fun _ same _ => notText same
  · exact notText
  · exact fun _ _ same _ => notOpen same
  · exact fun _ _ same _ => notOpen same
  · exact fun same _ => notOpen same

/-- A class goes to the next closing bracket. -/
theorem classFrom_of_body
    {opened : Nat} {negated : Bool} {others rest : List Char}
    (notClosed : ']' ∉ others) :
    ∀ (members : List Char) (position : Nat),
      classFrom opened negated members position (others ++ ']' :: rest) =
        (.ofClass negated (rangesOf (members.reverse ++ others)) :: ·) <$>
          tokensFrom (some ']') (position + others.length + 1) rest := by
  induction others with
  | nil =>
      intro members position
      rw [List.nil_append, List.append_nil, classFrom]
      rfl
  | cons member others inductionHypothesis =>
      intro members position
      rw [List.mem_cons, not_or] at notClosed
      have othersRead :=
        inductionHypothesis notClosed.2 (member :: members) (position + 1)
      rw [List.reverse_cons, List.append_assoc, List.singleton_append]
        at othersRead
      rw [List.cons_append, classFrom, othersRead, List.length_cons,
        Nat.add_assoc position, Nat.add_comm 1]
      exact Ne.symm notClosed.1

/-- What the grammar relates to a pattern, the reader gives. -/
theorem Reads.tokensFrom_eq
    {begins : Bool} {pattern : List Char} {tokens : List Token}
    (reads : Reads begins pattern tokens) :
    ∀ (before : Option Char) (position : Nat),
      startsComponent before = begins →
        tokensFrom before position pattern = .ok tokens := by
  induction reads with
  | atEnd =>
      intro before position _
      rw [tokensFrom]
  | literal ordinary _ inductionHypothesis =>
      intro before position _
      rw [tokensFrom_of_ordinary ordinary, inductionHypothesis _ _ rfl]
      rfl
  | anyChar _ inductionHypothesis =>
      intro before position _
      rw [tokensFrom, inductionHypothesis _ _ rfl]
      rfl
  | anyText ends _ inductionHypothesis =>
      intro before position _
      rw [tokensFrom, inductionHypothesis _ _ rfl]
      · rfl
      · rintro _ rfl
        exact ends rfl
      · rintro _ rfl
        exact ends rfl
  | remainder =>
      intro before position starts
      rw [tokensFrom, if_pos starts]
  | anyComponents _ inductionHypothesis =>
      intro before position starts
      rw [tokensFrom, if_pos starts, inductionHypothesis _ _ rfl]
      rfl
  | @ofClass _ first others rest _ unmarked notClosed _ inductionHypothesis =>
      intro before position _
      rw [tokensFrom, classFrom_of_body notClosed, inductionHypothesis _ _ rfl]
      · rfl
      · exact fun _ _ marked _ => unmarked marked
  | complement notClosed _ inductionHypothesis =>
      intro before position _
      rw [tokensFrom, classFrom_of_body notClosed, inductionHypothesis _ _ rfl]
      rfl

/-- A token read first, by a constructor of the grammar, goes before what is
read from the rest. -/
theorem reads_of_map_cons
    {token : Token} {begins restBegins : Bool} {pattern pattern' : List Char}
    {rest : Except SyntaxError (List Token)} {tokens : List Token}
    (read : (token :: ·) <$> rest = .ok tokens)
    (restReads :
      ∀ {others}, rest = .ok others → Reads restBegins pattern' others)
    (first :
      ∀ {others}, Reads restBegins pattern' others →
        Reads begins pattern (token :: others)) :
    Reads begins pattern tokens := by
  obtain ⟨others, restRead, rfl⟩ := map_eq_ok_iff.1 read
  exact first (restReads restRead)

/-- What the reader gives, the grammar relates to the pattern.  Inside a class,
it relates what comes behind the next closing bracket to the other tokens. -/
theorem reads_of_reading :
    (∀ before position pattern, ∀ {tokens},
      tokensFrom before position pattern = .ok tokens →
        Reads (startsComponent before) pattern tokens) ∧
    ∀ opened negated members position pattern, ∀ {tokens},
      classFrom opened negated members position pattern = .ok tokens →
        ∃ others rest later,
          pattern = others ++ ']' :: rest ∧ ']' ∉ others ∧
            tokens =
              .ofClass negated (rangesOf (members.reverse ++ others)) ::
                later ∧
            Reads false rest later := by
  apply tokensFrom.mutual_induct
  case case1 =>
    intro before position tokens read
    rw [tokensFrom] at read
    cases read
    exact .atEnd
  case case2 =>
    intro before position rest inductionHypothesis tokens read
    rw [tokensFrom] at read
    exact reads_of_map_cons read inductionHypothesis .anyChar
  case case3 =>
    intro before position tail tokens read
    rw [tokensFrom] at read
    cases read
  case case4 =>
    intro before position begins _ tokens read
    rw [tokensFrom, if_pos begins] at read
    cases read
    rw [begins]
    exact .remainder
  case case5 =>
    intro before position begins rest _ inductionHypothesis tokens read
    rw [tokensFrom, if_pos begins] at read
    rw [begins]
    exact reads_of_map_cons read inductionHypothesis .anyComponents
  case case6 =>
    intro before position rest notThree begins notEnd notSlash tokens read
    rw [tokensFrom, if_pos begins] at read
    · cases read
    all_goals assumption
  case case7 =>
    intro before position rest notThree notBegins tokens read
    rw [tokensFrom_of_inside notThree notBegins] at read
    cases read
  case case8 =>
    intro before position rest notThree notTwo inductionHypothesis tokens read
    have ends := head?_ne_star notTwo
    rw [tokensFrom] at read
    · exact reads_of_map_cons read inductionHypothesis (.anyText ends)
    all_goals assumption
  case case9 =>
    intro before position member rest inductionHypothesis tokens read
    rw [tokensFrom] at read
    obtain ⟨others, beyond, later, rfl, notClosed, rfl, laterReads⟩ :=
      inductionHypothesis read
    exact .complement notClosed laterReads
  case case10 =>
    intro before position member rest notNegated inductionHypothesis tokens
      read
    rw [tokensFrom] at read
    · obtain ⟨others, beyond, later, rfl, notClosed, rfl, laterReads⟩ :=
        inductionHypothesis read
      refine .ofClass ?_ notClosed laterReads
      -- A mark that something follows is no member.
      rintro rfl
      cases others with
      | nil => exact notNegated ']' beyond rfl rfl
      | cons head tail => exact notNegated head _ rfl rfl
    · exact notNegated
  case case11 =>
    intro before position tokens read
    rw [tokensFrom] at read
    cases read
  case case12 =>
    intro before position char rest notAny notThree notTwo notText notNegated
      notClass notOpen inductionHypothesis tokens read
    have ordinary : ¬ IsSpecial char := by
      rintro (isAny | isText | rfl)
      · exact notAny isAny
      · exact notText isText
      · cases rest with
        | nil => exact notOpen rfl rfl
        | cons member others => exact notClass member others rfl rfl
    rw [tokensFrom_of_ordinary ordinary] at read
    exact reads_of_map_cons read inductionHypothesis (.literal ordinary)
  case case13 =>
    intro opened negated members position tokens read
    rw [classFrom] at read
    cases read
  case case14 =>
    intro opened negated members position rest inductionHypothesis tokens read
    rw [classFrom] at read
    obtain ⟨later, restRead, rfl⟩ := map_eq_ok_iff.1 read
    refine
      ⟨[], rest, later, rfl, List.not_mem_nil, ?_,
        inductionHypothesis restRead⟩
    rw [List.append_nil]
  case case15 =>
    intro opened negated members position member rest notEnd
      inductionHypothesis tokens read
    rw [classFrom] at read
    · obtain ⟨others, beyond, later, rfl, notClosed, rfl, laterReads⟩ :=
        inductionHypothesis read
      refine ⟨member :: others, beyond, later, rfl, ?_, ?_, laterReads⟩
      · rw [List.mem_cons, not_or]
        exact ⟨Ne.symm notEnd, notClosed⟩
      · rw [List.reverse_cons, List.append_assoc, List.singleton_append]
    · exact notEnd

theorem parse_eq_ok_iff {pattern : List Char} {tokens : List Token} :
    parse pattern = .ok tokens ↔ Reads true pattern tokens := by
  constructor
  · exact reads_of_reading.1 none 0 pattern
  · intro reads
    exact reads.tokensFrom_eq none 0 rfl

end HeaderAudit.Wildcard
