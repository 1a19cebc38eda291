import HeaderAudit.Proofs.Exclusion
import HeaderAudit.Proofs.Path.Text
import HeaderAudit.Proofs.Wildcard.Search

/-! Nothing is excluded that is not UTF-8: such a path has no text, and no
entry names it. -/

namespace HeaderAudit

namespace Exclusion

/-- A path that an entry names has a text, since the entry has one. -/
theorem text?_ne_none_of_isSame
    {entry : String} {path : Path}
    (named : (Path.ofString entry).normalForm.isSame path = true) :
    path.text? ≠ none := by
  have sameComponents :
      (Path.ofString entry).normalForm.components = path.components :=
    beq_iff_eq.1 named
  have sameMoves : (Path.ofString entry).moves = path.moves := by
    rw [← Path.moves_normalForm, Path.moves, sameComponents, Path.moves]
  rw [Ne, ← Path.text?_eq_none_congr sameMoves, Path.text?_ofString]
  exact Option.some_ne_none _

theorem entryExcludes_iff {entry : String} {path : Path} :
    EntryExcludes entry path ↔
      (Path.ofString entry).normalForm.components = path.components ∨
        ∃ tokens text,
          Wildcard.parse entry.toList = .ok tokens ∧
            path.bytes = Utf8.encode text ∧ Wildcard.Matches tokens text := by
  simp only [EntryExcludes, Path.isSame, beq_iff_eq, Path.text?_eq_some_iff,
    Wildcard.accepts_iff_matches]

theorem text?_ne_none_of_excludes
    {entry : String} {path : Path} (excluded : EntryExcludes entry path) :
    path.text? ≠ none := by
  rcases excluded with named | ⟨tokens, text, _, readable, _⟩
  · exact text?_ne_none_of_isSame named
  · rw [readable]
    nofun

/-- A usable list excludes a path exactly when an entry names it or the text
of the path can be cut into pieces for the tokens of an entry.  A path without
a text is not excluded, and a search from the left finds a cut for an entry
exactly when there is one. -/
theorem excludes_iff_named_or_matched
    {entries : List String} {exclusion : Exclusion}
    (usable : ofEntries entries = .ok exclusion) (path : Path) :
    (exclusion.excludes path = true ↔
      ∃ entry ∈ entries,
        (Path.ofString entry).normalForm.components = path.components ∨
          ∃ tokens text,
            Wildcard.parse entry.toList = .ok tokens ∧
              path.bytes = Utf8.encode text ∧
                Wildcard.Matches tokens text) ∧
    ((∀ text, path.bytes ≠ Utf8.encode text) →
      exclusion.excludes path = false) ∧
    ∀ entry ∈ entries, ∃ tokens,
      Wildcard.parse entry.toList = .ok tokens ∧
        ∀ text,
          Wildcard.search tokens text = .accepted ↔
            Wildcard.Matches tokens text := by
  have byEntry := excludes_iff usable path
  refine ⟨?_, ?_, ?_⟩
  · simp only [byEntry, entryExcludes_iff]
  · intro unreadable
    rw [← Bool.not_eq_true, byEntry]
    rintro ⟨entry, _, excluded⟩
    obtain ⟨text, readable⟩ :=
      Option.ne_none_iff_exists'.1 (text?_ne_none_of_excludes excluded)
    exact unreadable text (Path.text?_eq_some_iff.1 readable)
  · intro entry member
    obtain ⟨tokens, read⟩ :=
      exists_ofEntries_iff.1 ⟨exclusion, usable⟩ entry member
    exact ⟨tokens, read, Wildcard.search_eq_accepted_iff_matches read⟩

/-- A list of a pattern with both wildcards and a name with brackets. -/
def mixedEntries : List String :=
  ["lib/**/*.h?", "doc/[1].txt"]

/-- Both wildcards of the first entry take part of a path, the second entry is
no pattern for the path that it names, and a byte that begins no character
keeps a path from being excluded. -/
theorem mixedEntries_exclude :
    ∃ exclusion,
      ofEntries mixedEntries = .ok exclusion ∧
        exclusion.excludes (Path.ofString "lib/a/.b/c.hh") = true ∧
        exclusion.excludes (Path.ofString "doc//[1].txt") = true ∧
        exclusion.excludes ⟨Utf8.encode "lib/a".toList ++ [0xFF]⟩ = false := by
  have usable : ofEntries mixedEntries = .ok _ := rfl
  refine ⟨_, usable, ?_, ?_, ?_⟩
  · apply (excludes_iff_named_or_matched usable _).1.2
    have cut :
        Wildcard.Matches
          [.literal 'l', .literal 'i', .literal 'b', .literal '/',
            .anyComponents, .anyText, .literal '.', .literal 'h', .anyChar]
          "lib/a/.b/c.hh".toList := by
      have noSlash : '/' ∉ ['c'] := by decide
      refine
        ⟨[['l'], ['i'], ['b'], ['/'], "a/.b/".toList, ['c'], ['.'], ['h'],
          ['h']], ?_, rfl⟩
      exact
        .piece rfl (.piece rfl (.piece rfl (.piece rfl
          (.piece (Or.inr rfl) (.piece noSlash
            (.piece rfl (.piece rfl (.piece ⟨'h', rfl, by decide⟩
              .none))))))))
    exact
      ⟨"lib/**/*.h?", List.mem_cons_self, Or.inr ⟨_, _, rfl, rfl, cut⟩⟩
  · apply (excludes_iff_named_or_matched usable _).1.2
    exact ⟨"doc/[1].txt", by decide, Or.inl (by decide)⟩
  · apply (excludes_iff_named_or_matched usable _).2.1
    intro text encoded
    have decoded := Utf8.decode_eq_some_iff.2 encoded
    have undecodable :
        Utf8.decode (Utf8.encode "lib/a".toList ++ [0xFF]) = none := by
      decide
    rw [undecodable] at decoded
    cases decoded

end Exclusion

end HeaderAudit
