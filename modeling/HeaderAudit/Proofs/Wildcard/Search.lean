import HeaderAudit.Proofs.Wildcard.Acceptance
import HeaderAudit.Proofs.Wildcard.Placement

/-! A wildcard is tried with nothing first, then with one more character at a
time. A trial that fails because the text was used up ends the whole search,
which is right where every `**` begins a component. -/

namespace HeaderAudit.Wildcard

/-- How a search ends. -/
inductive Outcome where
  | accepted
  /-- Another piece for an earlier wildcard may still lead to a cut. -/
  | rejected
  /-- The text was used up, whatever the pieces so far. -/
  | exhausted
  deriving DecidableEq, Repr

/-- Only a rejection leaves room for another trial. -/
def Outcome.orElse (first other : Outcome) : Outcome :=
  match first with
  | .rejected => other
  | ended => ended

/-- Try what follows a wildcard behind every place, after the first, at which
the wildcard may end.  At the end of the text there is nothing left to give
up. -/
def retry
    (wildcard : Token) (trial : List Char → Outcome) : List Char → Outcome
  | [] => trial []
  | char :: rest =>
      if wildcard = .anyComponents ∧ char ≠ '/' then
        retry wildcard trial rest
      else if wildcard = .anyText ∧ char = '/' then
        .rejected
      else
        (trial rest).orElse (retry wildcard trial rest)

/-- Search for a cut of the text. -/
def search : List Token → List Char → Outcome
  | [], text => if text = [] then .accepted else .rejected
  | .anyText :: tokens, text =>
      (search tokens text).orElse (retry .anyText (search tokens) text)
  | .anyComponents :: tokens, text =>
      (search tokens text).orElse (retry .anyComponents (search tokens) text)
  | _ :: _, [] => .exhausted
  | token :: tokens, char :: rest =>
      if token.takes char then search tokens rest else .rejected

/-! ## What an outcome tells -/

theorem Token.eq_slash_of_takes
    {token : Token} {char : Char}
    (isSingle : token.IsSingle)
    (ends : token.endsComponent = true)
    (takes : token.takes char = true) :
    char = '/' := by
  cases token with
  | literal expected =>
      have same : expected = '/' := beq_iff_eq.1 ends
      have taken : char = expected := beq_iff_eq.1 takes
      exact taken.trans same
  | anyComponents => exact isSingle.elim
  | _ => cases ends

/-- A later trial of these tokens may begin behind this text. -/
def MayBeginBehind (tokens : List Token) (before : List Char) : Prop :=
  tokens.head? = some .anyComponents →
    before = [] ∨ before.getLast? = some '/'

/-- No part of the text that a later trial may begin with is matched. -/
def UsedUp (tokens : List Token) (text : List Char) : Prop :=
  ∀ before suffix,
    before ++ suffix = text → MayBeginBehind tokens before →
      ¬ Matches tokens suffix

/-- The outcome of a search is the one that it should have. -/
inductive Outcome.Tells (tokens : List Token) (text : List Char) :
    Outcome → Prop
  | accepted : Matches tokens text → Tells tokens text .accepted
  | rejected : ¬ Matches tokens text → Tells tokens text .rejected
  | exhausted : UsedUp tokens text → Tells tokens text .exhausted

namespace UsedUp

variable {token : Token} {tokens : List Token} {text : List Char}

theorem not_matches (usedUp : UsedUp tokens text) : ¬ Matches tokens text :=
  usedUp [] text rfl fun _ => Or.inl rfl

/-- Where nothing is left to try, any outcome but success is right. -/
theorem tells
    {outcome : Outcome}
    (usedUp : UsedUp tokens text) (failed : outcome ≠ .accepted) :
    outcome.Tells tokens text := by
  cases outcome with
  | accepted => exact absurd rfl failed
  | rejected => exact .rejected usedUp.not_matches
  | exhausted => exact .exhausted usedUp

theorem not_afterSlash (usedUp : UsedUp tokens text) :
    ¬ AfterSlash (Matches tokens) text := by
  rintro ⟨before, rest, rfl, restMatches⟩
  have behind : MayBeginBehind tokens (before ++ ['/']) :=
    fun _ => Or.inr (by simp)
  exact usedUp (before ++ ['/']) rest (by simp) behind restMatches

theorem of_suffix
    {before suffix : List Char}
    (usedUp : UsedUp tokens (before ++ suffix))
    (notFirst : tokens.head? ≠ some .anyComponents) :
    ¬ Matches tokens suffix :=
  usedUp before suffix rfl fun isFirst => absurd isFirst notFirst

theorem cons
    {char : Char} {rest : List Char}
    (usedUp : UsedUp tokens rest)
    (notWhole : ¬ Matches tokens (char :: rest))
    (notFirst : tokens.head? ≠ some .anyComponents) :
    UsedUp tokens (char :: rest) := by
  intro before suffix cut _ suffixMatches
  cases before with
  | nil =>
      rw [List.nil_append] at cut
      exact notWhole (cut ▸ suffixMatches)
  | cons head before =>
      injection cut with _ sameRest
      subst sameRest
      exact usedUp.of_suffix notFirst suffixMatches

theorem anyText
    (usedUp : UsedUp tokens text)
    (notFirst : tokens.head? ≠ some .anyComponents) :
    UsedUp (.anyText :: tokens) text := by
  rintro before suffix rfl _ suffixMatches
  obtain ⟨piece, rest, rfl, _, restMatches⟩ :=
    matches_anyText_iff.1 suffixMatches
  rw [← List.append_assoc] at usedUp
  exact usedUp.of_suffix notFirst restMatches

theorem anyComponents
    (more : tokens ≠ [])
    (notNow : ¬ Matches tokens text)
    (notLater : ¬ AfterSlash (Matches tokens) text) :
    UsedUp (.anyComponents :: tokens) text := by
  rintro before suffix rfl behind suffixMatches
  rw [matches_anyComponents_iff more] at suffixMatches
  rcases behind rfl with empty | slashed
  · subst empty
    exact suffixMatches.elim notNow notLater
  · obtain ⟨start, rfl⟩ := List.getLast?_eq_some_iff.1 slashed
    rw [List.append_assoc, List.singleton_append] at notLater
    rcases suffixMatches with now | ⟨between, rest, rfl, restMatches⟩
    · exact notLater ⟨start, suffix, rfl, now⟩
    · exact
        notLater
          ⟨start ++ '/' :: between, rest, by simp, restMatches⟩

theorem single
    {char : Char} {rest : List Char}
    (usedUp : UsedUp tokens rest)
    (isSingle : token.IsSingle)
    (placed : WellPlaced token.endsComponent tokens) :
    UsedUp (token :: tokens) (char :: rest) := by
  intro before suffix cut _ suffixMatches
  obtain ⟨taken, after, rfl, takes, afterMatches⟩ :=
    (matches_single_iff isSingle).1 suffixMatches
  cases before with
  | nil =>
      injection cut with _ sameRest
      subst sameRest
      exact usedUp.not_matches afterMatches
  | cons head before =>
      injection cut with _ sameRest
      subst sameRest
      have behind : MayBeginBehind tokens (before ++ [taken]) := by
        intro isFirst
        have ends := placed.of_head isFirst
        have isSlash := token.eq_slash_of_takes isSingle ends takes
        exact Or.inr (by simp [isSlash])
      exact
        usedUp (before ++ [taken]) after (List.append_assoc before _ _)
          behind afterMatches

end UsedUp

/-! ## The search -/

theorem search_single_cons
    {token : Token} (isSingle : token.IsSingle)
    (tokens : List Token) (char : Char) (rest : List Char) :
    search (token :: tokens) (char :: rest) =
      if token.takes char then search tokens rest else .rejected := by
  cases token with
  | literal => rfl
  | anyChar => rfl
  | ofClass => rfl
  | anyText => exact isSingle.elim
  | anyComponents => exact isSingle.elim

theorem search_single_nil
    {token : Token} (isSingle : token.IsSingle) (tokens : List Token) :
    search (token :: tokens) [] = .exhausted := by
  cases token with
  | literal => rfl
  | anyChar => rfl
  | ofClass => rfl
  | anyText => exact isSingle.elim
  | anyComponents => exact isSingle.elim

theorem search_anyText_nil (tokens : List Token) :
    search (.anyText :: tokens) [] = search tokens [] := by
  rw [search, retry]
  cases search tokens [] <;> rfl

/-- Giving `*` one more character is a search of its own for the rest. -/
theorem search_anyText_cons
    (tokens : List Token) (char : Char) (rest : List Char) :
    search (.anyText :: tokens) (char :: rest) =
      (search tokens (char :: rest)).orElse
        (if char = '/' then .rejected
          else search (.anyText :: tokens) rest) := by
  simp only [search, retry, reduceCtorEq, false_and, if_false, true_and]

theorem Outcome.Tells.eq_accepted_iff
    {tokens : List Token} {text : List Char} {outcome : Outcome}
    (tells : outcome.Tells tokens text) :
    outcome = .accepted ↔ Matches tokens text := by
  cases tells with
  | accepted matched => exact iff_of_true rfl matched
  | rejected notMatched => exact iff_of_false nofun notMatched
  | exhausted usedUp => exact iff_of_false nofun usedUp.not_matches

theorem search_tells_single
    {token : Token} {tokens : List Token}
    (isSingle : token.IsSingle)
    (placed : WellPlaced token.endsComponent tokens)
    (tells : ∀ text, (search tokens text).Tells tokens text)
    (text : List Char) :
    (search (token :: tokens) text).Tells (token :: tokens) text := by
  cases text with
  | nil =>
      rw [search_single_nil isSingle]
      apply Outcome.Tells.exhausted
      intro before suffix cut _
      rw [(List.append_eq_nil_iff.1 cut).2, matches_single_iff isSingle]
      rintro ⟨_, _, impossible, _⟩
      cases impossible
  | cons char rest =>
      have whole :
          Matches (token :: tokens) (char :: rest) ↔
            token.takes char = true ∧ Matches tokens rest := by
        rw [matches_single_iff isSingle]
        constructor
        · rintro ⟨_, _, same, found⟩
          cases same
          exact found
        · intro found
          exact ⟨char, rest, rfl, found⟩
      rw [search_single_cons isSingle]
      by_cases takes : token.takes char = true
      · rw [if_pos takes]
        have restTells := tells rest
        generalize search tokens rest = outcome at restTells ⊢
        cases restTells with
        | accepted matched => exact .accepted (whole.2 ⟨takes, matched⟩)
        | rejected notMatched =>
            exact .rejected fun both => notMatched (whole.1 both).2
        | exhausted usedUp => exact .exhausted (usedUp.single isSingle placed)
      · rw [if_neg takes]
        exact .rejected fun both => takes (whole.1 both).1

theorem search_tells_anyText
    {tokens : List Token}
    (notFirst : tokens.head? ≠ some .anyComponents)
    (tells : ∀ text, (search tokens text).Tells tokens text)
    (text : List Char) :
    (search (.anyText :: tokens) text).Tells (.anyText :: tokens) text := by
  induction text with
  | nil =>
      have whole :
          Matches (.anyText :: tokens) [] ↔ Matches tokens [] := by
        rw [matches_anyText_iff, afterText_nil_iff]
      rw [search_anyText_nil]
      have restTells := tells []
      generalize search tokens [] = outcome at restTells ⊢
      cases restTells with
      | accepted matched => exact .accepted (whole.2 matched)
      | rejected notMatched => exact .rejected (mt whole.1 notMatched)
      | exhausted usedUp => exact .exhausted (usedUp.anyText notFirst)
  | cons char rest inductionHypothesis =>
      have whole :
          Matches (.anyText :: tokens) (char :: rest) ↔
            Matches tokens (char :: rest) ∨
              char ≠ '/' ∧ Matches (.anyText :: tokens) rest := by
        rw [matches_anyText_iff, matches_anyText_iff, afterText_cons_iff]
      rw [search_anyText_cons]
      have wholeTells := tells (char :: rest)
      generalize search tokens (char :: rest) = outcome at wholeTells ⊢
      cases wholeTells with
      | accepted matched => exact .accepted (whole.2 (Or.inl matched))
      | exhausted usedUp => exact .exhausted (usedUp.anyText notFirst)
      | rejected notMatched =>
          rw [Outcome.orElse]
          by_cases isSlash : char = '/'
          · rw [if_pos isSlash]
            apply Outcome.Tells.rejected
            intro matched
            exact (whole.1 matched).elim notMatched fun later =>
              later.1 isSlash
          rw [if_neg isSlash]
          have onlyLater :
              Matches (.anyText :: tokens) (char :: rest) ↔
                Matches (.anyText :: tokens) rest := by
            rw [whole]
            simp [notMatched, isSlash]
          generalize search (.anyText :: tokens) rest = later
            at inductionHypothesis ⊢
          cases inductionHypothesis with
          | accepted matched => exact .accepted (onlyLater.2 matched)
          | rejected notLater => exact .rejected (mt onlyLater.1 notLater)
          | exhausted usedUp =>
              apply Outcome.Tells.exhausted
              exact
                usedUp.cons (mt onlyLater.1 usedUp.not_matches) nofun

/-- Tokens that need no text at all let the first of them have some. -/
theorem matches_of_matches_nil
    {tokens : List Token} {text : List Char}
    (more : tokens ≠ [])
    (noSlash : '/' ∉ text)
    (needsNothing : Matches tokens []) :
    Matches tokens text := by
  induction tokens with
  | nil => exact absurd rfl more
  | cons token tokens inductionHypothesis =>
      have notSingle : ¬ token.IsSingle := by
        intro isSingle
        obtain ⟨_, _, impossible, _⟩ :=
          (matches_single_iff isSingle).1 needsNothing
        cases impossible
      cases token with
      | anyText =>
          rw [matches_anyText_iff, afterText_nil_iff] at needsNothing
          rw [matches_anyText_iff]
          exact
            ⟨text, [], (List.append_nil text).symm, noSlash, needsNothing⟩
      | anyComponents =>
          by_cases last : tokens = []
          · rw [last]
            exact matches_remainder text
          · rw [matches_anyComponents_iff last] at needsNothing ⊢
            have restNeedsNothing :=
              needsNothing.resolve_right not_afterSlash_nil
            exact Or.inl (inductionHypothesis last restNeedsNothing)
      | _ => exact absurd trivial notSingle

/-- What stands before the text was given to `**` without success, so nothing
is accepted before the next slash, not even at the end of the text. -/
theorem retry_anyComponents_eq_accepted_iff
    {tokens : List Token} {before text : List Char}
    (more : tokens ≠ [])
    (tells : ∀ text, (search tokens text).Tells tokens text)
    (noSlash : '/' ∉ before)
    (notMatched : ¬ Matches tokens (before ++ text)) :
    retry .anyComponents (search tokens) text = .accepted ↔
      AfterSlash (Matches tokens) text := by
  induction text generalizing before with
  | nil =>
      rw [List.append_nil] at notMatched
      rw [retry, (tells []).eq_accepted_iff]
      have notNothing : ¬ Matches tokens [] :=
        mt (matches_of_matches_nil more noSlash) notMatched
      exact iff_of_false notNothing not_afterSlash_nil
  | cons char rest inductionHypothesis =>
      rw [afterSlash_cons_iff]
      by_cases isSlash : char = '/'
      · have step :
            retry .anyComponents (search tokens) (char :: rest) =
              (search tokens rest).orElse
                (retry .anyComponents (search tokens) rest) := by
          simp [retry, isSlash]
        rw [step]
        have restTells := tells rest
        generalize search tokens rest = outcome at restTells ⊢
        cases restTells with
        | accepted matched =>
            exact iff_of_true rfl (Or.inl ⟨isSlash, matched⟩)
        | exhausted usedUp =>
            apply iff_of_false nofun
            exact
              not_or.2
                ⟨fun now => usedUp.not_matches now.2, usedUp.not_afterSlash⟩
        | rejected notRest =>
            have later := inductionHypothesis List.not_mem_nil notRest
            simp only [Outcome.orElse, later, notRest, and_false, false_or]
      · have step :
            retry .anyComponents (search tokens) (char :: rest) =
              retry .anyComponents (search tokens) rest := by
          simp [retry, isSlash]
        have stillNoSlash : '/' ∉ before ++ [char] := by
          simp [noSlash, Ne.symm isSlash]
        rw [List.append_cons] at notMatched
        rw [step, inductionHypothesis stillNoSlash notMatched]
        simp [isSlash]

theorem retry_remainder (text : List Char) :
    retry .anyComponents (search []) text = .accepted := by
  induction text with
  | nil => rfl
  | cons char rest inductionHypothesis =>
      by_cases isSlash : char = '/'
      · simp only [retry, isSlash, inductionHypothesis]
        by_cases atEnd : rest = []
        · simp [search, atEnd, Outcome.orElse]
        · simp [search, atEnd, Outcome.orElse]
      · simp [retry, isSlash, inductionHypothesis]

theorem search_tells_anyComponents
    {tokens : List Token}
    (tells : ∀ text, (search tokens text).Tells tokens text)
    (text : List Char) :
    (search (.anyComponents :: tokens) text).Tells
      (.anyComponents :: tokens) text := by
  rw [search]
  by_cases last : tokens = []
  · subst last
    rw [retry_remainder]
    have accepted : (search [] text).orElse .accepted = .accepted := by
      by_cases atEnd : text = []
      · simp [search, atEnd, Outcome.orElse]
      · simp [search, atEnd, Outcome.orElse]
    rw [accepted]
    exact .accepted (matches_remainder text)
  have textTells := tells text
  generalize search tokens text = outcome at textTells ⊢
  cases textTells with
  | accepted matched =>
      exact .accepted ((matches_anyComponents_iff last).2 (Or.inl matched))
  | exhausted usedUp =>
      apply Outcome.Tells.exhausted
      exact .anyComponents last usedUp.not_matches usedUp.not_afterSlash
  | rejected notNow =>
      have retried :=
        retry_anyComponents_eq_accepted_iff last tells List.not_mem_nil notNow
      rw [Outcome.orElse]
      by_cases later : AfterSlash (Matches tokens) text
      · rw [retried.2 later]
        exact .accepted ((matches_anyComponents_iff last).2 (Or.inr later))
      · have usedUp := UsedUp.anyComponents last notNow later
        exact usedUp.tells (mt retried.1 later)

theorem search_tells
    {begins : Bool} {tokens : List Token}
    (placed : WellPlaced begins tokens) (text : List Char) :
    (search tokens text).Tells tokens text := by
  induction tokens generalizing begins text with
  | nil =>
      by_cases atEnd : text = []
      · rw [search, if_pos atEnd]
        exact .accepted (matches_nil_iff.2 atEnd)
      · rw [search, if_neg atEnd]
        exact .rejected (mt matches_nil_iff.1 atEnd)
  | cons token tokens inductionHypothesis =>
      have restPlaced := placed.2
      have tells := inductionHypothesis restPlaced
      have single (isSingle : token.IsSingle) :=
        search_tells_single isSingle restPlaced tells text
      cases token with
      | literal char => exact single trivial
      | anyChar => exact single trivial
      | ofClass negated ranges => exact single trivial
      | anyText =>
          apply search_tells_anyText
          · intro isFirst
            cases restPlaced.of_head isFirst
          · exact tells
      | anyComponents => exact search_tells_anyComponents tells text

/-- Searched for in the pattern of an entry, a cut is found if there is one. -/
theorem search_eq_accepted_iff_matches
    {pattern : List Char} {tokens : List Token}
    (read : parse pattern = .ok tokens) (text : List Char) :
    search tokens text = .accepted ↔ Matches tokens text :=
  (search_tells (wellPlaced_of_parse read) text).eq_accepted_iff

end HeaderAudit.Wildcard
