import HeaderAudit.Path.Order
import HeaderAudit.Proofs.Path.Components

/-! Components compare equal only when they are the same; among paths in normal
form only a path itself does. -/

namespace HeaderAudit

namespace Component

theorem eq_of_rank_of_label
    {left right : Component} (sameRank : left.rank = right.rank)
    (sameLabel : left.label = right.label) :
    left = right := by
  cases left <;> cases right <;> simp_all [rank, label]

end Component

instance : Std.TransOrd Component :=
  inferInstanceAs <|
    Std.TransCmp
      (compareLex (compareOn Component.rank) (compareOn Component.label))

instance : Std.LawfulEqOrd Component where
  compare_self := Std.ReflOrd.compare_self
  eq_of_compare := by
    intro left right same
    obtain ⟨sameRank, sameLabel⟩ := compareLex_eq_eq.1 same
    exact Component.eq_of_rank_of_label
      (Std.LawfulEqOrd.eq_of_compare sameRank)
      (Std.LawfulEqOrd.eq_of_compare sameLabel)

instance : Std.TransOrd Path :=
  inferInstanceAs <| Std.TransCmp (compareOn Path.components)

namespace Path

theorem compare_eq_iff {left right : Path} :
    compare left right = .eq ↔ left.components = right.components := by
  change compare left.components right.components = .eq ↔ _
  exact Std.LawfulEqOrd.compare_eq_iff_eq

/-- One list of components has one normal form. -/
theorem compare_normalForm_eq_iff {left right : Path} :
    compare left.normalForm right.normalForm = .eq ↔
      left.normalForm = right.normalForm := by
  rw [compare_eq_iff, components_normalForm, components_normalForm,
    normalForm_eq_iff]

end Path

end HeaderAudit
