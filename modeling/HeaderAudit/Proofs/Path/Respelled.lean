import HeaderAudit.Proofs.Path.Join

namespace HeaderAudit.Path

/-- The second path is the first one less something that says nothing. -/
inductive Respelled : Path → Path → Prop
  | doubled (before after : List UInt8) :
      Respelled ⟨before ++ slash :: slash :: after⟩ ⟨before ++ slash :: after⟩
  | dotted (before after : List UInt8) :
      Respelled ⟨before ++ slash :: dot :: slash :: after⟩
        ⟨before ++ slash :: after⟩
  | closed {before : List UInt8} :
      before ≠ [] → Respelled ⟨before ++ [slash]⟩ ⟨before⟩
  | closedByDot {before : List UInt8} :
      before ≠ [] → Respelled ⟨before ++ [slash, dot]⟩ ⟨before⟩

theorem innerComponents_nil : (⟨[]⟩ : Path).innerComponents = [] := by decide

theorem innerComponents_dot : (⟨[dot]⟩ : Path).innerComponents = [] := by
  decide

/-- Behind a slash only the components between slashes count. -/
theorem components_append_slash_congr
    {before left right : List UInt8}
    (same :
      (⟨left⟩ : Path).innerComponents = (⟨right⟩ : Path).innerComponents) :
    (⟨before ++ slash :: left⟩ : Path).components =
      (⟨before ++ slash :: right⟩ : Path).components := by
  rw [components_eq, components_eq, lead_append_slash left,
    lead_append_slash right, innerComponents_append_slash,
    innerComponents_append_slash, same]

theorem components_append_slash_of_inner_eq_nil
    {before after : List UInt8} (notEmpty : before ≠ [])
    (nothing : (⟨after⟩ : Path).innerComponents = []) :
    (⟨before ++ slash :: after⟩ : Path).components =
      (⟨before⟩ : Path).components := by
  rw [components_eq, components_eq, lead_append_slash,
    lead_append_slash_nil notEmpty, innerComponents_append_slash, nothing,
    List.append_nil]

theorem Respelled.components_eq {left right : Path}
    (respelled : Respelled left right) :
    left.components = right.components := by
  cases respelled with
  | doubled before after =>
      exact components_append_slash_congr (innerComponents_slash_cons after)
  | dotted before after =>
      apply components_append_slash_congr
      rw [← List.singleton_append, innerComponents_append_slash,
        innerComponents_dot, List.nil_append]
  | closed notEmpty =>
      exact
        components_append_slash_of_inner_eq_nil notEmpty innerComponents_nil
  | closedByDot notEmpty =>
      exact
        components_append_slash_of_inner_eq_nil notEmpty innerComponents_dot

end HeaderAudit.Path
