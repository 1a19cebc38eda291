namespace HeaderAudit

variable {fault item result : Type}

theorem bind_eq_ok_iff
    {before : Except fault item} {after : item → Except fault result}
    {given : result} :
    (before >>= after) = .ok given ↔
      ∃ found, before = .ok found ∧ after found = .ok given := by
  cases before with
  | error cause =>
      constructor
      · intro impossible
        cases impossible
      · rintro ⟨found, impossible, _⟩
        cases impossible
  | ok found =>
      constructor
      · intro succeeded
        exact ⟨found, rfl, succeeded⟩
      · rintro ⟨_, ⟨⟩, succeeded⟩
        exact succeeded

theorem bind_eq_error_iff
    {before : Except fault item} {after : item → Except fault result}
    {cause : fault} :
    (before >>= after) = .error cause ↔
      before = .error cause ∨
        ∃ found, before = .ok found ∧ after found = .error cause := by
  cases before with
  | error raised =>
      constructor
      · intro failed
        cases failed
        exact Or.inl rfl
      · intro either
        rcases either with failed | ⟨_, impossible, _⟩
        · cases failed
          rfl
        · cases impossible
  | ok found =>
      constructor
      · intro failed
        exact Or.inr ⟨found, rfl, failed⟩
      · intro either
        rcases either with impossible | ⟨_, same, failed⟩
        · cases impossible
        · cases same
          exact failed

/-- A step fails exactly when it does not succeed. -/
theorem exists_error_iff {before : Except fault result} :
    (∃ cause, before = .error cause) ↔ ¬ ∃ given, before = .ok given := by
  cases before with
  | error cause =>
      constructor
      · rintro _ ⟨_, ⟨⟩⟩
      · intro _
        exact ⟨cause, rfl⟩
  | ok given =>
      constructor
      · rintro ⟨_, ⟨⟩⟩
      · intro failed
        exact absurd ⟨given, rfl⟩ failed

theorem map_eq_ok_iff
    {before : Except fault item} {change : item → result} {given : result} :
    change <$> before = .ok given ↔
      ∃ found, before = .ok found ∧ change found = given := by
  cases before with
  | error cause =>
      constructor
      · intro impossible
        cases impossible
      · rintro ⟨found, impossible, _⟩
        cases impossible
  | ok found =>
      constructor
      · intro succeeded
        cases succeeded
        exact ⟨found, rfl, rfl⟩
      · rintro ⟨_, ⟨⟩, same⟩
        rw [← same]
        rfl

theorem mapError_eq_error_iff
    {raised cause : Type} {before : Except raised item}
    {change : raised → cause} {given : cause} :
    before.mapError change = .error given ↔
      ∃ found, before = .error found ∧ change found = given := by
  cases before with
  | error raised =>
      constructor
      · intro failed
        cases failed
        exact ⟨raised, rfl, rfl⟩
      · intro described
        obtain ⟨_, same, changed⟩ := described
        cases same
        exact congrArg Except.error changed
  | ok found =>
      constructor
      · intro impossible
        cases impossible
      · intro described
        obtain ⟨_, impossible, _⟩ := described
        cases impossible

theorem mapError_eq_ok_iff
    {cause : Type} {before : Except fault item} {change : fault → cause}
    {given : item} :
    before.mapError change = .ok given ↔ before = .ok given := by
  cases before with
  | error raised =>
      constructor <;>
      · intro impossible
        cases impossible
  | ok found =>
      constructor <;>
      · intro succeeded
        cases succeeded
        rfl

theorem toOption_map (change : item → result) (given : Except fault item) :
    (given.map change).toOption = given.toOption.map change := by
  cases given <;> rfl

theorem mapM_congr
    {first second : item → Except fault result}
    {items : List item} (same : ∀ item ∈ items, first item = second item) :
    items.mapM first = items.mapM second := by
  induction items with
  | nil => rfl
  | cons head tail inductionHypothesis =>
      have headSame := same head List.mem_cons_self
      have tailSame :=
        inductionHypothesis fun item member =>
          same item (List.mem_cons_of_mem head member)
      rw [List.mapM_cons, List.mapM_cons, headSame, tailSame]

theorem exists_error_of_mapM_eq_error
    {step : item → Except fault result} {cause : fault} :
    ∀ {items : List item},
      items.mapM step = .error cause →
        ∃ item ∈ items, step item = .error cause
  | [], failed => by
      cases failed
  | first :: rest, failed => by
      rw [List.mapM_cons] at failed
      rcases bind_eq_error_iff.1 failed with firstFailed | ⟨_, _, tailFailed⟩
      · exact ⟨first, List.mem_cons_self, firstFailed⟩
      · rcases bind_eq_error_iff.1 tailFailed with
          restFailed | ⟨_, _, impossible⟩
        · obtain ⟨item, member, itemFailed⟩ :=
            exists_error_of_mapM_eq_error restFailed
          exact ⟨item, List.mem_cons_of_mem first member, itemFailed⟩
        · cases impossible

/-- What a run over a list gives is what its steps give. -/
theorem mem_of_mapM_eq_ok
    {step : item → Except fault result} :
    ∀ {items : List item} {results : List result},
      items.mapM step = .ok results →
        ∀ given, given ∈ results ↔ ∃ item ∈ items, step item = .ok given
  | [], results, ran, given => by
      cases ran
      simp
  | first :: rest, results, ran, given => by
      rw [List.mapM_cons] at ran
      obtain ⟨firstResult, firstRan, tailRan⟩ := bind_eq_ok_iff.1 ran
      obtain ⟨restResults, restRan, joined⟩ := bind_eq_ok_iff.1 tailRan
      cases joined
      rw [List.mem_cons, mem_of_mapM_eq_ok restRan given]
      constructor
      · rintro (rfl | ⟨item, member, itemRan⟩)
        · exact ⟨first, List.mem_cons_self, firstRan⟩
        · exact ⟨item, List.mem_cons_of_mem first member, itemRan⟩
      · rintro ⟨item, member, itemRan⟩
        rcases List.mem_cons.1 member with rfl | restMember
        · rw [firstRan] at itemRan
          cases itemRan
          exact Or.inl rfl
        · exact Or.inr ⟨item, restMember, itemRan⟩

theorem exists_ok_of_mapM_eq_ok
    {step : item → Except fault result} :
    ∀ {items : List item} {results : List result},
      items.mapM step = .ok results →
        ∀ item ∈ items, ∃ given ∈ results, step item = .ok given
  | [], _, _, _, member => by
      cases member
  | first :: rest, results, ran, item, member => by
      rw [List.mapM_cons] at ran
      obtain ⟨firstResult, firstRan, tailRan⟩ := bind_eq_ok_iff.1 ran
      obtain ⟨restResults, restRan, joined⟩ := bind_eq_ok_iff.1 tailRan
      cases joined
      rcases List.mem_cons.1 member with rfl | restMember
      · exact ⟨firstResult, List.mem_cons_self, firstRan⟩
      · obtain ⟨given, givenMember, itemRan⟩ :=
          exists_ok_of_mapM_eq_ok restRan item restMember
        exact ⟨given, List.mem_cons_of_mem firstResult givenMember, itemRan⟩

theorem exists_mapM_eq_ok
    {step : item → Except fault result} {items : List item}
    (succeeds : ∀ item ∈ items, ∃ given, step item = .ok given) :
    ∃ results, items.mapM step = .ok results := by
  cases ran : items.mapM step with
  | ok results => exact ⟨results, rfl⟩
  | error cause =>
      obtain ⟨item, member, failed⟩ := exists_error_of_mapM_eq_error ran
      obtain ⟨given, succeeded⟩ := succeeds item member
      rw [failed] at succeeded
      cases succeeded

/-- A run over a list fails with the first step that does. -/
theorem mapM_eq_error_iff
    {step : item → Except fault result} {cause : fault} :
    ∀ {items : List item},
      items.mapM step = .error cause ↔
        ∃ before failing after,
          items = before ++ failing :: after ∧
            (∀ earlier ∈ before, ∃ given, step earlier = .ok given) ∧
              step failing = .error cause
  | [] => by
      constructor
      · intro impossible
        cases impossible
      · rintro ⟨before, failing, after, impossible, _⟩
        cases before <;> cases impossible
  | first :: rest => by
      rw [List.mapM_cons]
      constructor
      · intro failed
        rcases bind_eq_error_iff.1 failed with
          firstFailed | ⟨firstResult, firstRan, tailFailed⟩
        · exact ⟨[], first, rest, rfl, nofun, firstFailed⟩
        · rcases bind_eq_error_iff.1 tailFailed with
            restFailed | ⟨_, _, impossible⟩
          · obtain ⟨before, failing, after, rfl, fine, failed⟩ :=
              mapM_eq_error_iff.1 restFailed
            exact
              ⟨first :: before, failing, after, rfl,
                List.forall_mem_cons.2 ⟨⟨firstResult, firstRan⟩, fine⟩,
                failed⟩
          · cases impossible
      · rintro ⟨before, failing, after, split, fine, failed⟩
        cases before with
        | nil =>
            cases split
            exact bind_eq_error_iff.2 (Or.inl failed)
        | cons earlier before =>
            cases split
            obtain ⟨⟨given, ran⟩, restFine⟩ := List.forall_mem_cons.1 fine
            have restFailed :=
              mapM_eq_error_iff.2 ⟨before, failing, after, rfl, restFine, failed⟩
            exact
              bind_eq_error_iff.2
                (Or.inr
                  ⟨given, ran, bind_eq_error_iff.2 (Or.inl restFailed)⟩)

end HeaderAudit
