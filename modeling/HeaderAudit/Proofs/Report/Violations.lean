import HeaderAudit.Proofs.Category
import HeaderAudit.Proofs.OrderedSet.Classes
import HeaderAudit.Proofs.Path.Lexicographic
import HeaderAudit.Report.Basic

namespace HeaderAudit

instance : Std.TransOrd Violation :=
  inferInstanceAs <|
    Std.TransCmp
      (compareLex (compareOn Violation.path) (compareOn Violation.category))

namespace Violation

/-- The first violation is listed before the second one. -/
def Precedes (left right : Violation) : Prop :=
  List.Lex Component.Precedes left.path.components right.path.components ∨
    left.path.components = right.path.components ∧
      left.category.rank < right.category.rank

theorem compare_eq (left right : Violation) :
    compare left right =
      (compare left.path right.path).then
        (compare left.category right.category) :=
  rfl

theorem compare_eq_lt_iff {left right : Violation} :
    compare left right = .lt ↔ left.Precedes right := by
  rw [compare_eq, Ordering.then_eq_lt, Path.compare_eq_lt_iff,
    Path.compare_eq_iff]
  change _ ∨ _ ∧ compare left.category.rank _ = _ ↔ _
  rw [Nat.compare_eq_lt, Precedes]

theorem compare_eq_eq_iff {left right : Violation} :
    compare left right = .eq ↔
      left.path.components = right.path.components ∧
        left.category = right.category := by
  rw [compare_eq, Ordering.then_eq_eq, Path.compare_eq_iff,
    Std.LawfulEqOrd.compare_eq_iff_eq]

theorem sameComponents_or_less
    {left right : Violation} (less : compare left right = .lt) :
    left.path.components = right.path.components ∨
      compare left.path.components right.path.components = .lt := by
  rw [compare_eq, Ordering.then_eq_lt] at less
  rcases less with byPath | ⟨samePath, _⟩
  · exact Or.inr byPath
  · exact Or.inl (Path.compare_eq_iff.1 samePath)

variable {directory : Path} {left middle right : Violation}

theorem leadsThrough_of_between
    (leftThrough : left.path.LeadsThrough directory)
    (rightThrough : right.path.LeadsThrough directory)
    (leftLess : compare left middle = .lt)
    (rightGreater : compare middle right = .lt) :
    middle.path.LeadsThrough directory := by
  unfold Path.LeadsThrough at *
  rcases sameComponents_or_less leftLess with same | less
  · rwa [← same]
  · rcases sameComponents_or_less rightGreater with same | greater
    · rwa [same]
    · exact prefix_of_between leftThrough rightThrough less greater

theorem liesBelow_of_between
    (leftBelow : left.path.LiesBelow directory)
    (rightBelow : right.path.LiesBelow directory)
    (leftLess : compare left middle = .lt)
    (rightGreater : compare middle right = .lt) :
    middle.path.LiesBelow directory := by
  refine
    ⟨leadsThrough_of_between leftBelow.1 rightBelow.1 leftLess rightGreater,
      fun isDirectory => ?_⟩
  rcases sameComponents_or_less leftLess with same | less
  · exact leftBelow.2 (same.trans isDirectory)
  · rw [isDirectory] at less
    exact compare_ne_lt_of_prefix leftBelow.1 less

end Violation

open OrderedSet Violation in
/-- The set that any sequence of insertions gives is strictly increasing.  It
holds exactly the violations that were inserted before every other one of their
class, so one for each class that was inserted; a further insertion changes it
only when no equal violation is present, and the classes do not depend on the
order.  What lies below one directory is one part of the set. -/
theorem insertAll_violations (inserted : List Violation) :
    ((∀ left right : Violation,
        compare left right = .lt ↔ left.Precedes right) ∧
      (∀ left right : Violation,
        compare left right = .eq ↔
          left.path.components = right.path.components ∧
            left.category = right.category) ∧
      (∀ left right : Violation,
        compare left right = (compare right left).swap) ∧
      ∀ left middle right : Violation,
        compare left middle ≠ .gt → compare middle right ≠ .gt →
          compare left right ≠ .gt) ∧
    Increasing (insertAll [] inserted) ∧
    (∀ violation,
      violation ∈ insertAll [] inserted ↔
        ∃ before after,
          inserted = before ++ violation :: after ∧
            ∀ earlier ∈ before, compare violation earlier ≠ .eq) ∧
    (∀ violation ∈ inserted,
      ∃ kept ∈ insertAll [] inserted,
        compare violation kept = .eq ∧
          ∀ other ∈ insertAll [] inserted,
            compare violation other = .eq → other = kept) ∧
    (∀ new,
      contains new (insertAll [] inserted) = true ∧
          insertAll [] (inserted ++ [new]) = insertAll [] inserted ∨
        contains new (insertAll [] inserted) = false ∧
          (insertAll [] (inserted ++ [new])).Perm
            (new :: insertAll [] inserted)) ∧
    (∀ reordered : List Violation,
      reordered.Perm inserted → ∀ violation,
        contains violation (insertAll [] reordered) =
          contains violation (insertAll [] inserted)) ∧
    ∀ directory : Path,
      IsBlock (insertAll [] inserted)
          (fun violation => violation.path.LeadsThrough directory) ∧
        IsBlock (insertAll [] inserted)
          (fun violation => violation.path.LiesBelow directory) := by
  have increasing : Increasing (insertAll [] inserted) :=
    increasing_insertAll inserted increasing_nil
  refine
    ⟨⟨fun _ _ => compare_eq_lt_iff, fun _ _ => compare_eq_eq_iff,
        fun _ _ => Std.OrientedCmp.eq_swap, ?transitive⟩,
      increasing, fun _ => mem_insertAll_iff_first, ?represented, ?insertion,
      fun _ reordered _ => contains_insertAll_perm reordered, ?blocks⟩
  case transitive =>
    intro left middle right
    simp only [← Ordering.isLE_iff_ne_gt]
    exact Std.TransCmp.isLE_trans
  case represented =>
    intro violation member
    have present : contains violation (insertAll [] inserted) = true := by
      rw [contains_insertAll_iff inserted increasing_nil]
      exact Or.inr ⟨violation, member, Std.ReflOrd.compare_self⟩
    obtain ⟨kept, keptMember, same⟩ := contains_iff.1 present
    refine ⟨kept, keptMember, same, fun other otherMember otherSame => ?_⟩
    refine increasing.eq_of_compare other otherMember kept keptMember ?_
    exact Std.TransCmp.eq_trans (Std.OrientedCmp.eq_symm otherSame) same
  case insertion =>
    intro new
    rw [insertAll_append_singleton]
    exact insert_cases increasing new
  case blocks =>
    intro directory
    exact
      ⟨increasing.isBlock fun _ _ _ => leadsThrough_of_between,
        increasing.isBlock fun _ _ _ => liesBelow_of_between⟩

/-- What is below `lib` is not parted by `lib-a`, and the first spelling of a
path stays. -/
example :
    (OrderedSet.insertAll []
        (["lib-a/x.py", "lib/x.py", "lib//x.py", "lib/a.py"].map fun text =>
          (⟨Path.ofString text, .script⟩ : Violation))).map Violation.path =
      ["lib/a.py", "lib/x.py", "lib-a/x.py"].map Path.ofString := by
  decide

end HeaderAudit
