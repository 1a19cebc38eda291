import HeaderAudit.Proofs.Exclusion.Single
import HeaderAudit.Proofs.Path.Join

/-! A pattern behind a dot and a slash matches only texts that begin so, and no
path in normal form does. -/

namespace HeaderAudit

namespace Path

/-- The path with a dot and a slash before it. -/
def dotted (path : Path) : Path :=
  ⟨dot :: slash :: path.bytes⟩

theorem ofString_dotted (text : String) :
    ofString ("./" ++ text) = (ofString text).dotted := by
  rw [ofString, String.toList_append]
  rfl

theorem moves_dotted {path : Path} (relative : path.isAbsolute = false) :
    path.dotted.moves = path.moves := by
  have joined : path.dotted = (⟨[dot]⟩ : Path).join path := by
    rw [join_of_relative _ relative]
    rfl
  have nothing : (⟨[dot]⟩ : Path).moves = [] := by decide
  rw [joined, moves_join relative, nothing, List.nil_append]

/-- No path in normal form begins with a dot and a slash. -/
theorem ne_dotted_of_normal
    {path : Path} (normal : path.normalForm = path) (other : Path) :
    path ≠ other.dotted := by
  rintro rfl
  have lead : other.dotted.lead = [.here] := by
    have first : other.dotted.pieces = [dot] :: other.pieces :=
      pieces_append_slash [dot] other.bytes
    rw [Path.lead, first]
    rfl
  have isComponent : .here ∈ other.dotted.components := by
    rw [components_eq, lead]
    exact List.mem_cons_self
  rw [← normal, components_normalForm, moves] at isComponent
  simpa using (List.mem_filter.1 isComponent).2

end Path

namespace Exclusion

variable {entry : String} {exclusion : Exclusion} {path : Path}

theorem toList_dotted (entry : String) :
    ("./" ++ entry).toList = '.' :: '/' :: entry.toList := by
  rw [String.toList_append]
  rfl

/-- The pattern of an entry behind a dot matches no path in normal form. -/
theorem not_patternMatches_dotted (normal : path.normalForm = path) :
    ¬ PatternMatches ("./" ++ entry) path := by
  rintro ⟨tokens, text, read, readable, matched⟩
  rw [toList_dotted] at read
  obtain ⟨later, rfl, _⟩ := Wildcard.parse_here_cons_iff.1 read
  obtain ⟨_, rfl, laterMatched⟩ := Wildcard.matches_literal_cons_iff.1 matched
  obtain ⟨rest, rfl, _⟩ := Wildcard.matches_literal_cons_iff.1 laterMatched
  have begins : path = (⟨Utf8.encode rest⟩ : Path).dotted :=
    congrArg Path.mk (Path.text?_eq_some_iff.1 readable)
  exact Path.ne_dotted_of_normal normal _ begins

/-- A dot and a slash may be written before any entry that can be used. -/
theorem exists_ofEntries_dotted (usable : ofEntries [entry] = .ok exclusion) :
    ∃ dotted, ofEntries ["./" ++ entry] = .ok dotted := by
  obtain ⟨tokens, read⟩ := exists_ofEntries_single_iff.1 ⟨exclusion, usable⟩
  have dottedRead := Wildcard.parse_here_cons_iff.2 ⟨tokens, rfl, read⟩
  rw [← toList_dotted] at dottedRead
  exact exists_ofEntries_single_iff.2 ⟨_, dottedRead⟩

/-- Of the paths in normal form, a relative entry behind a dot excludes the one
that the entry names. -/
theorem excludes_dotted_iff
    (relative : (Path.ofString entry).isAbsolute = false)
    {dotted : Exclusion} (usable : ofEntries ["./" ++ entry] = .ok dotted)
    (normal : path.normalForm = path) :
    dotted.excludes path = true ↔
      path = (Path.ofString entry).normalForm := by
  have named :
      (Path.ofString ("./" ++ entry)).normalForm =
        (Path.ofString entry).normalForm := by
    rw [Path.ofString_dotted, Path.normalForm_eq_iff]
    exact Path.moves_dotted relative
  rw [excludes_single_iff usable normal, named]
  exact or_iff_left (not_patternMatches_dotted normal)

/-- A relative entry that can be used can be used behind a dot, where it
excludes just the path that it names.  So the two spellings exclude the same
paths in normal form exactly when the entry is a pattern for none but the path
that it names, as it is when it has no special character. -/
theorem dotted_excludes_named
    (relative : (Path.ofString entry).isAbsolute = false)
    (usable : ofEntries [entry] = .ok exclusion) :
    ∃ dotted,
      ofEntries ["./" ++ entry] = .ok dotted ∧
        (∀ path : Path, path.normalForm = path →
          (dotted.excludes path = true ↔
            path = (Path.ofString entry).normalForm)) ∧
        ((∀ path : Path, path.normalForm = path →
            path.isAbsolute = false →
              dotted.excludes path = exclusion.excludes path) ↔
          ∀ path : Path, path.normalForm = path →
            path.isAbsolute = false →
              PatternMatches entry path →
                path = (Path.ofString entry).normalForm) ∧
        (Wildcard.IsPlain entry.toList →
          ∀ path : Path, path.normalForm = path →
            dotted.excludes path = exclusion.excludes path) := by
  obtain ⟨dotted, dottedUsable⟩ := exists_ofEntries_dotted usable
  have same_iff {path : Path} (normal : path.normalForm = path) :
      dotted.excludes path = exclusion.excludes path ↔
        (PatternMatches entry path →
          path = (Path.ofString entry).normalForm) := by
    rw [Bool.eq_iff_iff, excludes_dotted_iff relative dottedUsable normal,
      excludes_single_iff usable normal]
    constructor
    · intro same matched
      exact same.2 (Or.inr matched)
    · intro named
      refine ⟨Or.inl, ?_⟩
      rintro (isNamed | matched)
      · exact isNamed
      · exact named matched
  refine ⟨dotted, dottedUsable, ?_, ?_, ?_⟩
  · intro path normal
    exact excludes_dotted_iff relative dottedUsable normal
  · constructor
    · intro same path normal isRelative
      exact (same_iff normal).1 (same path normal isRelative)
    · intro named path normal isRelative
      exact (same_iff normal).2 (named path normal isRelative)
  · intro plain path normal
    apply (same_iff normal).2
    intro matched
    rw [patternMatches_of_isPlain plain] at matched
    rw [← matched, normal]

/-- What a pattern for sources excludes. -/
def starExclusion : Exclusion where
  literals := [Path.ofString "*.cpp"]
  patterns := [.anyText :: ".cpp".toList.map .literal]

/-- What the pattern excludes behind a dot. -/
def dottedStarExclusion : Exclusion where
  literals := [Path.ofString "*.cpp"]
  patterns := ["./".toList.map .literal ++ .anyText ::
    ".cpp".toList.map .literal]

/-- A pattern for sources, behind a dot, excludes the file with the name of the
pattern and no other source. -/
theorem dottedStar_excludes_named :
    (Path.ofString "*.cpp").isAbsolute = false ∧
      ofEntries ["*.cpp"] = .ok starExclusion ∧
      ofEntries ["./" ++ "*.cpp"] = .ok dottedStarExclusion ∧
      dottedStarExclusion.excludes (Path.ofString "*.cpp") = true := by
  have relative : (Path.ofString "*.cpp").isAbsolute = false := by
    decide +kernel
  have usable : ofEntries ["*.cpp"] = .ok starExclusion := by
    decide +kernel
  have dottedUsable :
      ofEntries ["./" ++ "*.cpp"] = .ok dottedStarExclusion := by
    decide +kernel
  obtain ⟨dotted, read, excludes, _⟩ := dotted_excludes_named relative usable
  rw [dottedUsable] at read
  cases read
  have normal :
      (Path.ofString "*.cpp").normalForm = Path.ofString "*.cpp" := by
    decide +kernel
  exact
    ⟨relative, usable, dottedUsable, (excludes _ normal).2 normal.symm⟩

/-- The two spellings do not exclude the same sources. -/
theorem dottedStar_excludes_less :
    (Path.ofString "*.cpp").isAbsolute = false ∧
      ofEntries ["*.cpp"] = .ok starExclusion ∧
      ofEntries ["./" ++ "*.cpp"] = .ok dottedStarExclusion ∧
      (Path.ofString "a.cpp").normalForm = Path.ofString "a.cpp" ∧
      (Path.ofString "a.cpp").isAbsolute = false ∧
      starExclusion.excludes (Path.ofString "a.cpp") = true ∧
      dottedStarExclusion.excludes (Path.ofString "a.cpp") = false := by
  decide +kernel

end Exclusion

end HeaderAudit
