import HeaderAudit.Exclusion
import HeaderAudit.Proofs.Steps

namespace HeaderAudit

namespace Exclusion

/-- One entry excludes the path: as the path that it names or as a pattern. -/
def EntryExcludes (entry : String) (path : Path) : Prop :=
  (Path.ofString entry).normalForm.isSame path = true ∨
    ∃ tokens text,
      Wildcard.parse entry.toList = .ok tokens ∧
        path.text? = some text ∧ Wildcard.accepts tokens text = true

theorem patternOf_eq_ok_iff
    {entry : String} {tokens : List Wildcard.Token} :
    patternOf entry = .ok tokens ↔
      Wildcard.parse entry.toList = .ok tokens := by
  rw [patternOf, mapError_eq_ok_iff]

/-- A list is usable when every entry is a pattern. -/
theorem exists_ofEntries_iff {entries : List String} :
    (∃ exclusion, ofEntries entries = .ok exclusion) ↔
      ∀ entry ∈ entries, ∃ tokens,
        Wildcard.parse entry.toList = .ok tokens := by
  constructor
  · intro usable entry member
    obtain ⟨exclusion, read⟩ := usable
    obtain ⟨patterns, parsed, _⟩ := bind_eq_ok_iff.1 read
    obtain ⟨tokens, _, entryParsed⟩ :=
      exists_ok_of_mapM_eq_ok parsed entry member
    exact ⟨tokens, patternOf_eq_ok_iff.1 entryParsed⟩
  · intro patterns
    have parses :
        ∀ entry ∈ entries, ∃ tokens, patternOf entry = .ok tokens := by
      intro entry member
      obtain ⟨tokens, entryParsed⟩ := patterns entry member
      exact ⟨tokens, patternOf_eq_ok_iff.2 entryParsed⟩
    obtain ⟨parsed, ran⟩ := exists_mapM_eq_ok parses
    exact ⟨_, bind_eq_ok_iff.2 ⟨parsed, ran, rfl⟩⟩

/-- A list is not usable when some entry is no pattern. -/
theorem exists_ofEntries_error_iff {entries : List String} :
    (∃ bad, ofEntries entries = .error bad) ↔
      ∃ entry ∈ entries, ∃ cause,
        Wildcard.parse entry.toList = .error cause := by
  rw [exists_error_iff, exists_ofEntries_iff]
  simp only [Classical.not_forall, exists_error_iff, exists_prop]

theorem exists_ofEntries_append_iff {former latter : List String} :
    (∃ exclusion, ofEntries (former ++ latter) = .ok exclusion) ↔
      (∃ exclusion, ofEntries former = .ok exclusion) ∧
        ∃ exclusion, ofEntries latter = .ok exclusion := by
  simp only [exists_ofEntries_iff, List.forall_mem_append]

/-- A list that is not usable names its first entry that is no pattern. -/
theorem ofEntries_eq_error_iff {entries : List String} {bad : BadEntry} :
    ofEntries entries = .error bad ↔
      ∃ before after,
        entries = before ++ bad.entry :: after ∧
          (∀ entry ∈ before, ∃ tokens,
            Wildcard.parse entry.toList = .ok tokens) ∧
          Wildcard.parse bad.entry.toList = .error bad.cause := by
  have parsing (entry : String) :
      patternOf entry = .error bad ↔
        entry = bad.entry ∧
          Wildcard.parse entry.toList = .error bad.cause := by
    obtain ⟨badEntry, badCause⟩ := bad
    rw [patternOf, mapError_eq_error_iff]
    constructor
    · rintro ⟨_, failed, ⟨⟩⟩
      exact ⟨rfl, failed⟩
    · rintro ⟨rfl, failed⟩
      exact ⟨badCause, failed, rfl⟩
  have listed :
      ofEntries entries = .error bad ↔
        entries.mapM patternOf = .error bad := by
    rw [ofEntries, bind_eq_error_iff]
    exact or_iff_left nofun
  simp only [listed, mapM_eq_error_iff, parsing, patternOf_eq_ok_iff]
  constructor
  · rintro ⟨before, _, after, split, fine, rfl, failed⟩
    exact ⟨before, after, split, fine, failed⟩
  · rintro ⟨before, after, split, fine, failed⟩
    exact ⟨before, _, after, split, fine, rfl, failed⟩

theorem any_accepts_iff
    {entries : List String} {patterns : List (List Wildcard.Token)}
    (parsed : entries.mapM patternOf = .ok patterns) (text : List Char) :
    (patterns.any (Wildcard.accepts · text)) = true ↔
      ∃ entry ∈ entries, ∃ tokens,
        Wildcard.parse entry.toList = .ok tokens ∧
          Wildcard.accepts tokens text = true := by
  rw [List.any_eq_true]
  constructor
  · intro accepted
    obtain ⟨tokens, member, accepts⟩ := accepted
    obtain ⟨entry, entryMember, entryParsed⟩ :=
      (mem_of_mapM_eq_ok parsed tokens).1 member
    exact
      ⟨entry, entryMember, tokens, patternOf_eq_ok_iff.1 entryParsed, accepts⟩
  · intro accepted
    obtain ⟨entry, entryMember, tokens, entryParsed, accepts⟩ := accepted
    have entryRan := patternOf_eq_ok_iff.2 entryParsed
    exact
      ⟨tokens,
        (mem_of_mapM_eq_ok parsed tokens).2 ⟨entry, entryMember, entryRan⟩,
        accepts⟩

/-- A usable list excludes what one of its entries excludes. -/
theorem excludes_iff
    {entries : List String} {exclusion : Exclusion}
    (read : ofEntries entries = .ok exclusion) (path : Path) :
    exclusion.excludes path = true ↔
      ∃ entry ∈ entries, EntryExcludes entry path := by
  obtain ⟨patterns, parsed, built⟩ := bind_eq_ok_iff.1 read
  cases built
  have accepting := any_accepts_iff parsed
  unfold excludes EntryExcludes
  rw [Bool.or_eq_true, List.any_map, List.any_eq_true]
  cases readable : path.text? with
  | none => simp
  | some text =>
      simp only [accepting text]
      constructor
      · intro excluded
        rcases excluded with
          ⟨entry, member, same⟩ | ⟨entry, member, tokens, accepted⟩
        · exact ⟨entry, member, Or.inl same⟩
        · exact
            ⟨entry, member,
              Or.inr ⟨tokens, text, accepted.1, rfl, accepted.2⟩⟩
      · intro excluded
        obtain ⟨entry, member, either⟩ := excluded
        rcases either with same | ⟨tokens, _, entryParsed, same, accepts⟩
        · exact Or.inl ⟨entry, member, same⟩
        · cases same
          exact Or.inr ⟨entry, member, tokens, entryParsed, accepts⟩

end Exclusion

end HeaderAudit
