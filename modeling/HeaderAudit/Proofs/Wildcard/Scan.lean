import HeaderAudit.Proofs.Wildcard.Reading
import Mathlib.Logic.Relation

/-! A scan goes from one place of a pattern outside of classes to the next.
Where it finds nothing wrong, the grammar has a token, and what the grammar
reads a scan passes over. -/

namespace HeaderAudit.Wildcard

/-! ## Bodies of classes -/

/-- What stands between the brackets of a class.  The first member can be any
character, also a bracket, and for a complement it comes behind the mark; no
other member is a closing bracket. -/
def IsClassBody (body : List Char) : Prop :=
  ∃ first others,
    (body = '!' :: first :: others ∨ body = first :: others ∧ first ≠ '!') ∧
      ']' ∉ others

variable {others others' beyond beyond' : List Char}

/-- Only one closing bracket is the first. -/
theorem eq_of_first_close
    (notClosed : ']' ∉ others) (notClosed' : ']' ∉ others')
    (same : others ++ ']' :: beyond = others' ++ ']' :: beyond') :
    others = others' ∧ beyond = beyond' := by
  induction others generalizing others' with
  | nil =>
      cases others' with
      | nil => exact ⟨rfl, (List.cons.inj same).2⟩
      | cons head tail =>
          have closes : ']' = head := (List.cons.inj same).1
          exact absurd (closes ▸ List.mem_cons_self) notClosed'
  | cons head tail inductionHypothesis =>
      cases others' with
      | nil =>
          have closes : head = ']' := (List.cons.inj same).1
          exact absurd (closes ▸ List.mem_cons_self) notClosed
      | cons head' tail' =>
          rw [List.mem_cons, not_or] at notClosed notClosed'
          obtain ⟨rfl, sameTail⟩ := List.cons.inj same
          obtain ⟨rfl, rfl⟩ :=
            inductionHypothesis notClosed.2 notClosed'.2 sameTail
          exact ⟨rfl, rfl⟩

/-- A class has one body: it goes to the first bracket that can close it. -/
theorem IsClassBody.eq_of_append
    {body body' : List Char}
    (isBody : IsClassBody body) (isBody' : IsClassBody body')
    (same : body ++ ']' :: beyond = body' ++ ']' :: beyond') :
    body = body' ∧ beyond = beyond' := by
  obtain ⟨first, others, isBody, notClosed⟩ := isBody
  obtain ⟨first', others', isBody', notClosed'⟩ := isBody'
  rcases isBody with rfl | ⟨rfl, unmarked⟩ <;>
    rcases isBody' with rfl | ⟨rfl, unmarked'⟩
  · injection same with _ same
    injection same with sameFirst sameRest
    obtain ⟨rfl, rfl⟩ := eq_of_first_close notClosed notClosed' sameRest
    exact ⟨by rw [sameFirst], rfl⟩
  · injection same with mark
    exact absurd mark.symm unmarked'
  · injection same with mark
    exact absurd mark unmarked
  · injection same with sameFirst sameRest
    obtain ⟨rfl, rfl⟩ := eq_of_first_close notClosed notClosed' sameRest
    exact ⟨by rw [sameFirst], rfl⟩

/-! ## Scans -/

/-- A place in a pattern: what stands before it and what is left. -/
structure Place where
  before : List Char
  rest : List Char

namespace Place

/-- Outside of classes one place comes behind another. -/
inductive Next : Place → Place → Prop
  | char {before rest : List Char} {char : Char} :
      char ≠ '[' → Next ⟨before, char :: rest⟩ ⟨before ++ [char], rest⟩
  | ofClass {before body rest : List Char} :
      IsClassBody body →
      Next ⟨before, '[' :: (body ++ ']' :: rest)⟩
        ⟨before ++ '[' :: body ++ [']'], rest⟩

/-- Nothing is wrong at the place. -/
structure Sound (place : Place) : Prop where
  /-- No three stars come in a row. -/
  noStarRun : ∀ after, place.rest ≠ '*' :: '*' :: '*' :: after
  /-- A run of exactly two stars fills a component of the pattern. -/
  wholeComponent :
    ∀ after, place.rest = '*' :: '*' :: after →
      place.before.getLast? ≠ some '*' → after.head? ≠ some '*' →
        (place.before = [] ∨ place.before.getLast? = some '/') ∧
          (after = [] ∨ after.head? = some '/')
  /-- A bracket is closed behind the body of a class. -/
  closed :
    ∀ after, place.rest = '[' :: after →
      ∃ body beyond, after = body ++ ']' :: beyond ∧ IsClassBody body

/-- A scan that goes on from the place finds nothing wrong. -/
def AllSound (place : Place) : Prop :=
  ∀ later, Relation.ReflTransGen Next place later → later.Sound

end Place

/-- A scan of the whole pattern finds nothing wrong outside of classes. -/
def IsReadable (pattern : List Char) : Prop :=
  Place.AllSound ⟨[], pattern⟩

namespace Place

theorem allSound_iff {place : Place} :
    place.AllSound ↔
      place.Sound ∧ ∀ next, Next place next → next.AllSound := by
  constructor
  · intro allSound
    refine ⟨allSound place .refl, fun next step later scanned => ?_⟩
    exact allSound later (.head step scanned)
  · rintro ⟨sound, rest⟩ later scanned
    rcases scanned.cases_head with rfl | ⟨next, step, scanned⟩
    · exact sound
    · exact rest next step later scanned

variable {before rest : List Char} {char : Char}

theorem allSound_nil : AllSound ⟨before, []⟩ := by
  refine allSound_iff.2 ⟨⟨nofun, nofun, nofun⟩, ?_⟩
  rintro next ⟨⟩

/-- Over one character a scan goes in one way. -/
theorem allSound_cons_iff (notOpen : char ≠ '[') :
    AllSound ⟨before, char :: rest⟩ ↔
      Sound ⟨before, char :: rest⟩ ∧ AllSound ⟨before ++ [char], rest⟩ := by
  rw [allSound_iff]
  refine and_congr_right fun _ => ⟨fun all => all _ (.char notOpen), ?_⟩
  rintro allSound next step
  cases step with
  | char => exact allSound
  | ofClass => exact absurd rfl notOpen

theorem sound_of_ordinary (notStar : char ≠ '*') (notOpen : char ≠ '[') :
    Sound ⟨before, char :: rest⟩ := by
  refine ⟨?_, ?_, ?_⟩
  · rintro after ⟨⟩
    exact notStar rfl
  · rintro after ⟨⟩
    exact absurd rfl notStar
  · rintro after ⟨⟩
    exact absurd rfl notOpen

theorem allSound_ordinary_iff (notStar : char ≠ '*') (notOpen : char ≠ '[') :
    AllSound ⟨before, char :: rest⟩ ↔ AllSound ⟨before ++ [char], rest⟩ := by
  rw [allSound_cons_iff notOpen]
  exact and_iff_right (sound_of_ordinary notStar notOpen)

/-- A star at the end of a run of stars is sound. -/
theorem allSound_star_iff (ends : rest.head? ≠ some '*') :
    AllSound ⟨before, '*' :: rest⟩ ↔ AllSound ⟨before ++ ['*'], rest⟩ := by
  rw [allSound_cons_iff (by decide)]
  refine and_iff_right ⟨?_, ?_, nofun⟩
  · rintro after ⟨⟩
    exact ends rfl
  · rintro after ⟨⟩
    exact absurd rfl ends

theorem not_allSound_stars : ¬ AllSound ⟨before, '*' :: '*' :: '*' :: rest⟩ :=
  fun allSound => (allSound _ .refl).noStarRun rest rfl

theorem allSound_components_iff
    (begins : before.getLast? ≠ some '*') (ends : rest.head? ≠ some '*') :
    AllSound ⟨before, '*' :: '*' :: rest⟩ ↔
      (before = [] ∨ before.getLast? = some '/') ∧
        (rest = [] ∨ rest.head? = some '/') ∧
          AllSound ⟨before ++ ['*'] ++ ['*'], rest⟩ := by
  rw [allSound_cons_iff (by decide), allSound_star_iff ends, ← and_assoc]
  refine and_congr_left fun _ => ⟨?_, ?_⟩
  · intro sound
    exact sound.wholeComponent rest rfl begins ends
  · intro whole
    refine ⟨?_, ?_, nofun⟩
    · rintro after ⟨⟩
      exact ends rfl
    · rintro after ⟨⟩ _ _
      exact whole

/-- Over a class a scan goes in one way. -/
theorem allSound_class_iff {body : List Char} (isBody : IsClassBody body) :
    AllSound ⟨before, '[' :: (body ++ ']' :: rest)⟩ ↔
      AllSound ⟨before ++ '[' :: body ++ [']'], rest⟩ := by
  rw [allSound_iff]
  constructor
  · rintro ⟨_, all⟩
    exact all _ (.ofClass isBody)
  · intro allSound
    refine ⟨⟨nofun, nofun, ?_⟩, ?_⟩
    · rintro _ ⟨⟩
      exact ⟨body, rest, rfl, isBody⟩
    · intro next step
      generalize opened : '[' :: (body ++ ']' :: rest) = left at step
      cases step with
      | char notOpen =>
          injection opened with isOpen
          exact absurd isOpen.symm notOpen
      | ofClass isBody' =>
          injection opened with _ same
          obtain ⟨rfl, rfl⟩ := isBody.eq_of_append isBody' same
          exact allSound

end Place

/-! ## Reading and scanning -/

theorem startsComponent_getLast?_iff {passed : List Char} :
    startsComponent passed.getLast? = true ↔
      passed = [] ∨ passed.getLast? = some '/' := by
  cases last : passed.getLast? with
  | none => simp [startsComponent, List.getLast?_eq_none_iff.1 last]
  | some char =>
      have notEmpty : passed ≠ [] := by
        rintro rfl
        cases last
      simp [startsComponent, notEmpty]

open Place

/-- The hypothesis of the next induction, at a place behind a character. -/
theorem allSound_behind
    {passed rest : List Char} {last : Char}
    (allSound :
      ∀ passed : List Char,
        startsComponent passed.getLast? = (last == '/') →
        (passed.getLast? = some '*' → rest.head? ≠ some '*') →
          AllSound ⟨passed, rest⟩)
    (noRun : last ≠ '*' ∨ rest.head? ≠ some '*') :
    AllSound ⟨passed ++ [last], rest⟩ := by
  apply allSound <;> rw [List.getLast?_concat]
  · rfl
  · intro isStar
    exact noRun.resolve_left fun other => other (Option.some.inj isStar)

/-- A scan of what can be read finds nothing wrong. -/
theorem Reads.allSound
    {begins : Bool} {pattern : List Char} {tokens : List Token}
    (reads : Reads begins pattern tokens) :
    ∀ passed : List Char,
      startsComponent passed.getLast? = begins →
      (passed.getLast? = some '*' → pattern.head? ≠ some '*') →
        AllSound ⟨passed, pattern⟩ := by
  induction reads with
  | atEnd =>
      intro passed _ _
      exact allSound_nil
  | @literal _ char _ _ ordinary _ restSound =>
      intro passed _ _
      have notText : char ≠ '*' := fun same => ordinary (Or.inr (Or.inl same))
      have notOpen : char ≠ '[' := fun same => ordinary (Or.inr (Or.inr same))
      rw [allSound_ordinary_iff notText notOpen]
      exact allSound_behind restSound (Or.inl notText)
  | anyChar _ restSound =>
      intro passed _ _
      rw [allSound_ordinary_iff (by decide) (by decide)]
      exact allSound_behind restSound (Or.inl (by decide))
  | anyText ends _ restSound =>
      intro passed _ _
      rw [allSound_star_iff ends]
      exact allSound_behind restSound (Or.inr ends)
  | remainder =>
      intro passed begins noRun
      rw [allSound_components_iff (fun isStar => noRun isStar rfl) (by decide)]
      exact ⟨startsComponent_getLast?_iff.1 begins, Or.inl rfl, allSound_nil⟩
  | anyComponents _ restSound =>
      intro passed begins noRun
      rw [allSound_components_iff (fun isStar => noRun isStar rfl) (by simp)]
      refine ⟨startsComponent_getLast?_iff.1 begins, Or.inr rfl, ?_⟩
      rw [allSound_ordinary_iff (by decide) (by decide)]
      exact allSound_behind restSound (Or.inl (by decide))
  | @ofClass _ first others _ _ unmarked notClosed _ restSound =>
      intro passed _ _
      have isBody : IsClassBody (first :: others) :=
        ⟨first, others, Or.inr ⟨rfl, unmarked⟩, notClosed⟩
      refine (allSound_class_iff isBody).2 ?_
      exact allSound_behind restSound (Or.inl (by decide))
  | @complement _ first others _ _ notClosed _ restSound =>
      intro passed _ _
      have isBody : IsClassBody ('!' :: first :: others) :=
        ⟨first, others, Or.inl rfl, notClosed⟩
      refine (allSound_class_iff isBody).2 ?_
      exact allSound_behind restSound (Or.inl (by decide))

/-- Two stars at which a scan finds nothing wrong begin a component, and behind
them the pattern ends or the next component begins. -/
theorem components_of_allSound
    {passed after : List Char}
    (allSound : AllSound ⟨passed, '*' :: '*' :: after⟩)
    (begins : passed.getLast? ≠ some '*') :
    startsComponent passed.getLast? = true ∧
      (after = [] ∨
        ∃ beyond, after = '/' :: beyond ∧
          AllSound ⟨passed ++ ['*'] ++ ['*'] ++ ['/'], beyond⟩) := by
  have ends : after.head? ≠ some '*' := by
    intro isStar
    obtain ⟨_, rfl⟩ := List.head?_eq_some_iff.1 isStar
    exact not_allSound_stars allSound
  rw [allSound_components_iff begins ends] at allSound
  obtain ⟨whole, behind, afterSound⟩ := allSound
  refine ⟨startsComponent_getLast?_iff.2 whole, behind.imp_right ?_⟩
  intro isSlash
  obtain ⟨beyond, rfl⟩ := List.head?_eq_some_iff.1 isSlash
  exact
    ⟨beyond, rfl, (allSound_ordinary_iff (by decide) (by decide)).1 afterSound⟩

/-- Where a scan finds nothing wrong, the pattern can be read.  The induction is
on what is left of it, of which every token takes a part. -/
theorem exists_reads_of_allSound
    {passed pattern : List Char}
    (allSound : AllSound ⟨passed, pattern⟩)
    (noRun : passed.getLast? = some '*' → pattern.head? ≠ some '*') :
    ∃ tokens, Reads (startsComponent passed.getLast?) pattern tokens := by
  induction size : pattern.length using Nat.strongRecOn
    generalizing passed pattern with
  | ind size inductionHypothesis =>
      subst size
      have restReads :
          ∀ {before rest : List Char} {last : Char},
            rest.length < pattern.length →
            AllSound ⟨before ++ [last], rest⟩ →
            last ≠ '*' ∨ rest.head? ≠ some '*' →
              ∃ tokens, Reads (last == '/') rest tokens := by
        intro before rest last shorter restSound restNoRun
        have restReads := inductionHypothesis _ shorter restSound
        rw [List.getLast?_concat] at restReads
        refine restReads (fun isStar => ?_) rfl
        exact restNoRun.resolve_left fun other => other (Option.some.inj isStar)
      cases pattern with
      | nil => exact ⟨[], .atEnd⟩
      | cons char rest =>
          by_cases special : IsSpecial char
          · rcases special with rfl | rfl | rfl
            · rw [allSound_ordinary_iff (by decide) (by decide)] at allSound
              obtain ⟨tokens, reads⟩ :=
                restReads (Nat.lt_succ_self _) allSound (Or.inl (by decide))
              exact ⟨_, .anyChar reads⟩
            · by_cases ends : rest.head? = some '*'
              · obtain ⟨after, rfl⟩ := List.head?_eq_some_iff.1 ends
                obtain ⟨begins, rfl | ⟨beyond, rfl, beyondSound⟩⟩ :=
                  components_of_allSound allSound fun isStar => noRun isStar rfl
                · rw [begins]
                  exact ⟨_, .remainder⟩
                · obtain ⟨tokens, reads⟩ :=
                    restReads (by simp; omega) beyondSound (Or.inl (by decide))
                  rw [begins]
                  exact ⟨_, .anyComponents reads⟩
              · rw [allSound_star_iff ends] at allSound
                obtain ⟨tokens, reads⟩ :=
                  restReads (Nat.lt_succ_self _) allSound (Or.inr ends)
                exact ⟨_, .anyText ends reads⟩
            · obtain ⟨body, beyond, rfl, isBody⟩ :=
                (allSound _ .refl).closed rest rfl
              have beyondSound := (allSound_class_iff isBody).1 allSound
              obtain ⟨tokens, reads⟩ :=
                restReads (by simp; omega) beyondSound (Or.inl (by decide))
              obtain ⟨first, others, rfl | ⟨rfl, unmarked⟩, notClosed⟩ := isBody
              · exact ⟨_, .complement notClosed reads⟩
              · exact ⟨_, .ofClass unmarked notClosed reads⟩
          · have notText : char ≠ '*' :=
              fun same => special (Or.inr (Or.inl same))
            have notOpen : char ≠ '[' :=
              fun same => special (Or.inr (Or.inr same))
            rw [allSound_ordinary_iff notText notOpen] at allSound
            obtain ⟨tokens, reads⟩ :=
              restReads (Nat.lt_succ_self _) allSound (Or.inl notText)
            exact ⟨_, .literal special reads⟩

/-- A pattern can be read when a scan of it finds nothing wrong. -/
theorem exists_parse_iff {pattern : List Char} :
    (∃ tokens, parse pattern = .ok tokens) ↔ IsReadable pattern := by
  simp only [parse_eq_ok_iff]
  constructor
  · rintro ⟨tokens, reads⟩
    exact reads.allSound [] rfl nofun
  · intro readable
    exact exists_reads_of_allSound readable nofun

-- The first member may be a closing bracket, but the mark is no member.
example :
    IsReadable "[]]".toList ∧ IsReadable "[!]]".toList ∧
      ¬ IsReadable "[!]".toList ∧ ¬ IsReadable "[]".toList := by
  simp only [← exists_parse_iff]
  refine ⟨⟨_, rfl⟩, ⟨_, rfl⟩, ?_, ?_⟩ <;> rintro ⟨_, ⟨⟩⟩

end HeaderAudit.Wildcard
