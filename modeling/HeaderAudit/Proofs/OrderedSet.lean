import HeaderAudit.OrderedSet
import Mathlib.Data.List.Basic

namespace HeaderAudit.OrderedSet

variable {value : Type} [Ord value]

/-- The members are listed in their order, and no two are equal. -/
def Increasing (members : List value) : Prop :=
  members.Pairwise fun left right => compare left right = .lt

theorem Increasing.nodup [Std.ReflOrd value] {members : List value}
    (increasing : Increasing members) :
    members.Nodup := by
  refine List.Pairwise.imp ?_ increasing
  intro left right less same
  rw [same, Std.ReflOrd.compare_self] at less
  cases less

/-- An increasing list is told by its members. -/
theorem Increasing.eq_of_mem_iff [Std.TransOrd value]
    {left right : List value}
    (leftIncreasing : Increasing left) (rightIncreasing : Increasing right)
    (sameMembers : ∀ member, member ∈ left ↔ member ∈ right) :
    left = right := by
  have permuted :=
    (List.perm_ext_iff_of_nodup leftIncreasing.nodup
      rightIncreasing.nodup).2 sameMembers
  refine permuted.eq_of_pairwise ?_ leftIncreasing rightIncreasing
  intro first second _ _ less greater
  rw [Std.OrientedCmp.gt_of_lt less] at greater
  cases greater

theorem eq_or_mem_of_mem_insert {new tested : value} :
    ∀ {members : List value},
      tested ∈ insert new members → tested = new ∨ tested ∈ members
  | [], member => Or.inl (List.mem_singleton.1 member)
  | first :: rest, member => by
      unfold insert at member
      split at member
      · exact List.mem_cons.1 member
      · exact Or.inr member
      · rcases List.mem_cons.1 member with rfl | restMember
        · exact Or.inr List.mem_cons_self
        · rcases eq_or_mem_of_mem_insert restMember with same | old
          · exact Or.inl same
          · exact Or.inr (List.mem_cons_of_mem first old)

theorem mem_insert_of_mem {new tested : value} :
    ∀ {members : List value},
      tested ∈ members → tested ∈ insert new members
  | first :: rest, member => by
      unfold insert
      split
      · exact List.mem_cons_of_mem new member
      · exact member
      · rcases List.mem_cons.1 member with rfl | restMember
        · exact List.mem_cons_self
        · exact List.mem_cons_of_mem first (mem_insert_of_mem restMember)

theorem exists_equal_mem_insert [Std.ReflOrd value] (new : value) :
    ∀ members : List value,
      ∃ member ∈ insert new members, compare new member = .eq
  | [] => ⟨new, List.mem_singleton_self new, Std.ReflOrd.compare_self⟩
  | first :: rest => by
      unfold insert
      split
      · exact ⟨new, List.mem_cons_self, Std.ReflOrd.compare_self⟩
      · rename_i same
        exact ⟨first, List.mem_cons_self, same⟩
      · obtain ⟨member, restMember, same⟩ :=
          exists_equal_mem_insert new rest
        exact ⟨member, List.mem_cons_of_mem first restMember, same⟩

theorem increasing_insert [Std.TransOrd value] (new : value) :
    ∀ {members : List value},
      Increasing members → Increasing (insert new members)
  | [], _ => List.pairwise_singleton _ new
  | first :: rest, increasing => by
      obtain ⟨firstLeast, restIncreasing⟩ := List.pairwise_cons.1 increasing
      unfold insert
      split
      · rename_i newLess
        refine List.pairwise_cons.2 ⟨?_, increasing⟩
        intro member memberOf
        rcases List.mem_cons.1 memberOf with rfl | restMember
        · exact newLess
        · exact Std.TransCmp.lt_trans newLess (firstLeast member restMember)
      · exact increasing
      · rename_i newGreater
        refine List.pairwise_cons.2
          ⟨?_, increasing_insert new restIncreasing⟩
        intro member memberOf
        rcases eq_or_mem_of_mem_insert memberOf with rfl | restMember
        · exact Std.OrientedCmp.lt_of_gt newGreater
        · exact firstLeast member restMember

theorem increasing_insertAll [Std.TransOrd value] (values : List value) :
    ∀ {members : List value},
      Increasing members → Increasing (insertAll members values) := by
  induction values with
  | nil =>
      intro members increasing
      exact increasing
  | cons new rest inductionHypothesis =>
      intro members increasing
      exact inductionHypothesis (increasing_insert new increasing)

/-- A value that is greater than all members is listed behind them. -/
theorem insert_of_greater
    {new : value} {members : List value}
    (greater : ∀ member ∈ members, compare new member = .gt) :
    insert new members = members ++ [new] := by
  induction members with
  | nil => rfl
  | cons first rest inductionHypothesis =>
      obtain ⟨firstLess, restLess⟩ := List.forall_mem_cons.1 greater
      simp only [insert, firstLess, inductionHypothesis restLess,
        List.cons_append]

/-- Values that come in their order are listed as they come. -/
theorem insertAll_append_of_increasing [Std.TransOrd value]
    (values : List value) :
    ∀ {members : List value},
      Increasing (members ++ values) →
        insertAll members values = members ++ values := by
  induction values with
  | nil =>
      intro members _
      exact (List.append_nil members).symm
  | cons new rest inductionHypothesis =>
      intro members increasing
      have greater : ∀ member ∈ members, compare new member = .gt := by
        intro member memberOf
        have less :=
          (List.pairwise_append.1 increasing).2.2 member memberOf new
            List.mem_cons_self
        exact Std.OrientedCmp.gt_of_lt less
      rw [List.append_cons] at increasing ⊢
      calc
        insertAll members (new :: rest) =
            insertAll (insert new members) rest := rfl
        _ = insertAll (members ++ [new]) rest := by
          rw [insert_of_greater greater]
        _ = (members ++ [new]) ++ rest := inductionHypothesis increasing

theorem insertAll_of_increasing [Std.TransOrd value]
    {values : List value} (increasing : Increasing values) :
    insertAll [] values = values :=
  insertAll_append_of_increasing values increasing

theorem mem_insert_iff [Std.ReflOrd value] {new tested : value}
    {members : List value}
    (equalSame : ∀ member ∈ members, compare new member = .eq → new = member) :
    tested ∈ insert new members ↔ tested = new ∨ tested ∈ members := by
  constructor
  · exact eq_or_mem_of_mem_insert
  · rintro (rfl | old)
    · obtain ⟨member, memberOf, same⟩ :=
        exists_equal_mem_insert tested members
      have memberEq : tested = member := by
        rcases eq_or_mem_of_mem_insert memberOf with new | old
        · exact new.symm
        · exact equalSame member old same
      rwa [← memberEq] at memberOf
    · exact mem_insert_of_mem old

/-- Where equal values are the same, the set of a list has exactly the values
of the list. -/
theorem mem_insertAll_iff [Std.ReflOrd value] {tested : value}
    (values : List value) :
    ∀ {members : List value},
      (∀ left ∈ members ++ values, ∀ right ∈ members ++ values,
        compare left right = .eq → left = right) →
      (tested ∈ insertAll members values ↔
        tested ∈ members ∨ tested ∈ values) := by
  induction values with
  | nil =>
      intro members _
      simp [insertAll]
  | cons new rest inductionHypothesis =>
      intro members equalSame
      have insertedFrom :
          ∀ member ∈ insert new members ++ rest,
            member ∈ members ++ new :: rest := by
        intro member memberOf
        rcases List.mem_append.1 memberOf with inserted | restMember
        · rcases eq_or_mem_of_mem_insert inserted with rfl | old
          · simp
          · simp [old]
        · simp [restMember]
      have step :
          tested ∈ insertAll (insert new members) rest ↔
            tested ∈ insert new members ∨ tested ∈ rest :=
        inductionHypothesis fun left leftOf right rightOf =>
          equalSame left (insertedFrom left leftOf)
            right (insertedFrom right rightOf)
      have inserted : tested ∈ insert new members ↔ _ :=
        mem_insert_iff fun member memberOf =>
          equalSame new (by simp) member (by simp [memberOf])
      change tested ∈ insertAll (insert new members) rest ↔ _
      rw [step, inserted, List.mem_cons]
      constructor
      · rintro ((same | old) | later)
        · exact Or.inr (Or.inl same)
        · exact Or.inl old
        · exact Or.inr (Or.inr later)
      · rintro (old | same | later)
        · exact Or.inl (Or.inr old)
        · exact Or.inl (Or.inl same)
        · exact Or.inr later

theorem mem_ofList [Std.LawfulEqOrd value] {tested : value} :
    ∀ {values : List value}, tested ∈ values → tested ∈ ofList values
  | first :: rest, member => by
      change tested ∈ insert first (ofList rest)
      rcases List.mem_cons.1 member with rfl | restMember
      · obtain ⟨present, presentMember, same⟩ :=
          exists_equal_mem_insert tested (ofList rest)
        cases Std.LawfulEqOrd.eq_of_compare same
        exact presentMember
      · exact mem_insert_of_mem (mem_ofList restMember)

theorem mem_of_mem_ofList {tested : value} :
    ∀ {values : List value}, tested ∈ ofList values → tested ∈ values
  | first :: rest, member => by
      have inserted : tested ∈ insert first (ofList rest) := member
      rcases eq_or_mem_of_mem_insert inserted with same | later
      · exact List.mem_cons.2 (Or.inl same)
      · exact List.mem_cons_of_mem first (mem_of_mem_ofList later)

theorem increasing_ofList [Std.TransOrd value] :
    ∀ values : List value, Increasing (ofList values)
  | [] => List.Pairwise.nil
  | first :: rest => increasing_insert first (increasing_ofList rest)

end HeaderAudit.OrderedSet
