import HeaderAudit.Proofs.OrderedSet
import Mathlib.Data.List.Induction

/-! A set holds one value of each class of equal ones, the one that was
inserted first. The classes do not depend on the order of the insertions; which
value stands for a class does. -/

namespace HeaderAudit.OrderedSet

variable {value : Type} [Ord value] {new tested : value}
  {members values : List value}

theorem contains_iff :
    contains new members = true ↔
      ∃ member ∈ members, compare new member = .eq := by
  simp [contains]

theorem insert_of_contains [Std.TransOrd value] :
    ∀ {members : List value},
      Increasing members → contains new members = true →
        insert new members = members
  | first :: rest, increasing, present => by
      obtain ⟨firstLeast, restIncreasing⟩ := List.pairwise_cons.1 increasing
      obtain ⟨member, memberOf, same⟩ := contains_iff.1 present
      unfold insert
      split
      · rename_i newLess
        have less : compare new member = .lt := by
          rcases List.mem_cons.1 memberOf with rfl | restMember
          · exact newLess
          · exact Std.TransCmp.lt_trans newLess (firstLeast member restMember)
        rw [same] at less
        cases less
      · rfl
      · rename_i newGreater
        have restMember : member ∈ rest := by
          rcases List.mem_cons.1 memberOf with rfl | restMember
          · rw [same] at newGreater
            cases newGreater
          · exact restMember
        have restPresent := contains_iff.2 ⟨member, restMember, same⟩
        rw [insert_of_contains restIncreasing restPresent]

theorem insert_perm_of_not_contains :
    ∀ {members : List value},
      contains new members = false →
        (insert new members).Perm (new :: members)
  | [], _ => List.Perm.refl _
  | first :: rest, absent => by
      obtain ⟨notFirst, restAbsent⟩ :
          compare new first ≠ .eq ∧ contains new rest = false := by
        simpa [contains] using absent
      unfold insert
      split
      · exact List.Perm.refl _
      · rename_i same
        exact absurd same notFirst
      · exact
          ((insert_perm_of_not_contains restAbsent).cons first).trans
            (List.Perm.swap new first rest)

/-- An insertion finds an equal member and changes nothing, or it finds none
and adds its value. -/
theorem insert_cases [Std.TransOrd value]
    (increasing : Increasing members) (new : value) :
    contains new members = true ∧ insert new members = members ∨
      contains new members = false ∧
        (insert new members).Perm (new :: members) := by
  cases present : contains new members with
  | true => exact Or.inl ⟨rfl, insert_of_contains increasing present⟩
  | false => exact Or.inr ⟨rfl, insert_perm_of_not_contains present⟩

theorem mem_insert_iff_of_increasing [Std.TransOrd value]
    (increasing : Increasing members) :
    tested ∈ insert new members ↔
      tested ∈ members ∨ tested = new ∧ contains new members = false := by
  rcases insert_cases increasing new
    with ⟨present, unchanged⟩ | ⟨absent, added⟩
  · simp [present, unchanged]
  · simp [absent, added.mem_iff, or_comm]

theorem contains_insert_iff [Std.TransOrd value]
    (increasing : Increasing members) :
    contains tested (insert new members) = true ↔
      contains tested members = true ∨ compare tested new = .eq := by
  rcases insert_cases increasing new
    with ⟨present, unchanged⟩ | ⟨_, added⟩
  · rw [unchanged]
    refine ⟨Or.inl, ?_⟩
    rintro (found | same)
    · exact found
    · obtain ⟨member, memberOf, sameMember⟩ := contains_iff.1 present
      exact
        contains_iff.2
          ⟨member, memberOf, Std.TransCmp.eq_trans same sameMember⟩
  · simp [contains_iff, added.mem_iff, or_comm]

theorem increasing_nil : Increasing ([] : List value) :=
  List.Pairwise.nil

theorem insertAll_append_singleton (values : List value) (new : value) :
    insertAll members (values ++ [new]) =
      insert new (insertAll members values) := by
  simp [insertAll]

/-- A class is in the set when one of its values was inserted. -/
theorem contains_insertAll_iff [Std.TransOrd value] (values : List value) :
    ∀ {members : List value},
      Increasing members →
        (contains tested (insertAll members values) = true ↔
          contains tested members = true ∨
            ∃ inserted ∈ values, compare tested inserted = .eq) := by
  induction values with
  | nil =>
      intro members _
      simp [insertAll]
  | cons new rest inductionHypothesis =>
      intro members increasing
      change contains tested (insertAll (insert new members) rest) = true ↔ _
      rw [inductionHypothesis (increasing_insert new increasing),
        contains_insert_iff increasing, or_assoc]
      simp only [List.mem_cons, exists_eq_or_imp]

theorem contains_insertAll_perm [Std.TransOrd value]
    {others : List value} (reordered : others.Perm values) :
    contains tested (insertAll [] others) =
      contains tested (insertAll [] values) := by
  rw [Bool.eq_iff_iff, contains_insertAll_iff others increasing_nil,
    contains_insertAll_iff values increasing_nil]
  simp only [reordered.mem_iff]

/-- The set holds each value that was inserted before every other one of its
class. -/
theorem mem_insertAll_iff_first [Std.TransOrd value] :
    tested ∈ insertAll [] values ↔
      ∃ before after,
        values = before ++ tested :: after ∧
          ∀ earlier ∈ before, compare tested earlier ≠ .eq := by
  -- A later insertion keeps the members, so the last one is taken off first.
  induction values using List.reverseRecOn with
  | nil => simp [insertAll]
  | append_singleton values new inductionHypothesis =>
      have increasing : Increasing (insertAll [] values) :=
        increasing_insertAll values increasing_nil
      have absentIff :
          contains new (insertAll [] values) = false ↔
            ∀ earlier ∈ values, compare new earlier ≠ .eq := by
        rw [← Bool.not_eq_true,
          contains_insertAll_iff values increasing_nil]
        simp [contains]
      rw [insertAll_append_singleton,
        mem_insert_iff_of_increasing increasing, inductionHypothesis,
        absentIff]
      constructor
      · rintro (⟨before, after, rfl, first⟩ | ⟨rfl, first⟩)
        · exact ⟨before, after ++ [new], by simp, first⟩
        · exact ⟨values, [], rfl, first⟩
      · rintro ⟨before, after, split, first⟩
        rcases List.eq_nil_or_concat' after with rfl | ⟨others, last, rfl⟩
        · obtain ⟨rfl, same⟩ := List.append_inj' split rfl
          cases same
          exact Or.inr ⟨rfl, first⟩
        · rw [← List.cons_append, ← List.append_assoc] at split
          obtain ⟨rfl, _⟩ := List.append_inj' split rfl
          exact Or.inl ⟨before, others, rfl, first⟩

/-- No class has two members. -/
theorem Increasing.eq_of_compare [Std.TransOrd value]
    (increasing : Increasing members) :
    ∀ left ∈ members, ∀ right ∈ members,
      compare left right = .eq → left = right := by
  induction members with
  | nil => nofun
  | cons first rest inductionHypothesis =>
      obtain ⟨firstLeast, restIncreasing⟩ := List.pairwise_cons.1 increasing
      intro left leftMember right rightMember same
      rcases List.mem_cons.1 leftMember with rfl | leftRest <;>
        rcases List.mem_cons.1 rightMember with rfl | rightRest
      · rfl
      · rw [firstLeast right rightRest] at same
        cases same
      · rw [Std.OrientedCmp.gt_of_lt (firstLeast left leftRest)] at same
        cases same
      · exact
          inductionHypothesis restIncreasing left leftRest right rightRest
            same

/-- The members with the property stand together. -/
def IsBlock (members : List value) (property : value → Prop) : Prop :=
  ∃ before block after,
    members = before ++ block ++ after ∧
      (∀ member ∈ block, property member) ∧
        ∀ member ∈ before ++ after, ¬ property member

/-- A property that values have between any two that have it holds of one part
of a set. -/
theorem Increasing.isBlock
    {property : value → Prop}
    (increasing : Increasing members)
    (convex :
      ∀ left middle right,
        property left → property right →
          compare left middle = .lt → compare middle right = .lt →
            property middle) :
    IsBlock members property := by
  induction members with
  | nil => exact ⟨[], [], [], rfl, nofun, nofun⟩
  | cons first rest inductionHypothesis =>
      obtain ⟨firstLeast, restIncreasing⟩ := List.pairwise_cons.1 increasing
      obtain ⟨before, block, after, rfl, inside, outside⟩ :=
        inductionHypothesis restIncreasing
      by_cases has : property first
      · cases block with
        | nil =>
            refine ⟨[], [first], before ++ after, by simp, ?_, outside⟩
            simpa using has
        | cons second others =>
            have noneBefore : before = [] := by
              cases before with
              | nil => rfl
              | cons between more =>
                  have notBetween := outside between (by simp)
                  have betweenLeast :=
                    (List.pairwise_cons.1 restIncreasing).1
                  have less : compare between second = .lt :=
                    betweenLeast second (by simp)
                  exact
                    absurd
                      (convex first between second has
                        (inside second List.mem_cons_self)
                        (firstLeast between (by simp)) less)
                      notBetween
            subst noneBefore
            refine ⟨[], first :: second :: others, after, rfl, ?_, outside⟩
            exact List.forall_mem_cons.2 ⟨has, inside⟩
      · refine ⟨first :: before, block, after, rfl, inside, ?_⟩
        exact List.forall_mem_cons.2 ⟨has, outside⟩

end HeaderAudit.OrderedSet
