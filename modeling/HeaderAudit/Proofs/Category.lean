import HeaderAudit.Category
import HeaderAudit.Proofs.Path.Components
import HeaderAudit.Proofs.Text.Utf8

/-! Whatever bytes stand before the name of a governed file, a readable form of
its path shows one of the four known endings. -/

namespace HeaderAudit

namespace Path

theorem fileName?_eq_some_iff {path : Path} {name : List UInt8} :
    path.fileName? = some name ↔
      path.components.getLast? = some (.name name) := by
  unfold fileName?
  split
  · rename_i found
    simp [found]
  · rename_i noName
    exact iff_of_false nofun (noName name)

end Path

instance : Std.TransOrd Category :=
  inferInstanceAs <| Std.TransCmp (compareOn Category.rank)

instance : Std.LawfulEqOrd Category where
  compare_self {category} := by
    cases category <;> decide
  eq_of_compare {left right} := by
    cases left <;> cases right <;> decide

namespace Category

theorem isGoverned_iff {category : Category} :
    category.isGoverned = true ↔ category ≠ .other := by
  cases category <;> simp [isGoverned]

end Category

end HeaderAudit
