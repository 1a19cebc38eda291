import HeaderAudit.Proofs.Path.Order

/-! Whatever lies between two paths below a directory is below that directory
too. -/

namespace HeaderAudit

/-- Lists are compared by their first difference. -/
theorem compare_eq_lt_iff_lex
    {item : Type} [Ord item] [Std.LawfulEqOrd item] {left right : List item} :
    compare left right = .lt ↔
      List.Lex (fun lower higher => compare lower higher = .lt) left right := by
  induction left generalizing right with
  | nil =>
      cases right with
      | nil => simp
      | cons head tail => simp
  | cons first rest inductionHypothesis =>
      cases right with
      | nil => simp
      | cons head tail =>
          rw [List.compare_cons_cons, List.cons_lex_cons_iff,
            Ordering.then_eq_lt, inductionHypothesis,
            Std.LawfulEqOrd.compare_eq_iff_eq]

/-- What lies between two lists with a common beginning begins with it too. -/
theorem prefix_of_between
    {item : Type} [Ord item] [Std.TransOrd item] [Std.LawfulEqOrd item]
    {shared left middle right : List item}
    (leftBegins : shared <+: left) (rightBegins : shared <+: right)
    (leftLess : compare left middle = .lt)
    (rightGreater : compare middle right = .lt) :
    shared <+: middle := by
  induction shared generalizing left middle right with
  | nil => exact List.nil_prefix
  | cons head tail inductionHypothesis =>
      obtain ⟨leftRest, rfl⟩ := leftBegins
      obtain ⟨rightRest, rfl⟩ := rightBegins
      cases middle with
      | nil => cases leftLess
      | cons first rest =>
          rw [List.cons_append, List.compare_cons_cons,
            Ordering.then_eq_lt] at leftLess rightGreater
          have same : compare head first = .eq := by
            rcases leftLess with less | ⟨same, _⟩
            · rcases rightGreater with greater | ⟨same, _⟩
              · have both := Std.TransCmp.lt_trans less greater
                rw [Std.ReflOrd.compare_self] at both
                cases both
              · exact Std.OrientedCmp.eq_symm same
            · exact same
          cases Std.LawfulEqOrd.eq_of_compare same
          simp only [Std.ReflOrd.compare_self, reduceCtorEq, false_or,
            true_and] at leftLess rightGreater
          exact
            List.cons_prefix_cons.2
              ⟨rfl,
                inductionHypothesis (List.prefix_append _ _)
                  (List.prefix_append _ _) leftLess rightGreater⟩

/-- A list is not lower than one that it begins with. -/
theorem compare_ne_lt_of_prefix
    {item : Type} [Ord item] [Std.ReflOrd item] {shared whole : List item}
    (begins : shared <+: whole) :
    compare whole shared ≠ .lt := by
  obtain ⟨rest, rfl⟩ := begins
  induction shared with
  | nil => cases rest <;> nofun
  | cons head tail inductionHypothesis =>
      rw [List.cons_append, List.compare_cons_cons, Std.ReflOrd.compare_self]
      exact inductionHypothesis

namespace Component

/-- The first component comes before the second one: the root before the dot,
the dot before the step up, that before every name, and names by their
bytes. -/
def Precedes : Component → Component → Prop
  | .root, right => right ≠ .root
  | .here, right => right = .up ∨ ∃ bytes, right = .name bytes
  | .up, right => ∃ bytes, right = .name bytes
  | .name left, right =>
      ∃ bytes, right = .name bytes ∧ List.Lex (· < ·) left bytes

theorem compare_eq_lt_iff {left right : Component} :
    compare left right = .lt ↔ left.Precedes right := by
  have byRank :
      compare left right = .lt ↔
        left.rank < right.rank ∨
          left.rank = right.rank ∧
            List.Lex (· < ·) left.label right.label := by
    change (compare left.rank _).then (compare left.label _) = .lt ↔ _
    rw [Ordering.then_eq_lt, compare_eq_lt_iff_lex, Nat.compare_eq_lt,
      Nat.compare_eq_eq]
    simp only [Std.compare_eq_lt]
  rw [byRank]
  cases left <;> cases right <;> simp [Precedes, rank, label]

end Component

namespace Path

theorem compare_eq_lt_iff {left right : Path} :
    compare left right = .lt ↔
      List.Lex Component.Precedes left.components right.components := by
  change compare left.components right.components = .lt ↔ _
  simp only [compare_eq_lt_iff_lex, Component.compare_eq_lt_iff]

/-- The path is the directory or leads through it. -/
def LeadsThrough (path directory : Path) : Prop :=
  directory.components <+: path.components

/-- The path leads through the directory to something else. -/
def LiesBelow (path directory : Path) : Prop :=
  path.LeadsThrough directory ∧ path.components ≠ directory.components

end Path

end HeaderAudit
