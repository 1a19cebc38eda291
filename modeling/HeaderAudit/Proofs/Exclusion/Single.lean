import HeaderAudit.Proofs.Exclusion.Meaning
import HeaderAudit.Proofs.Wildcard.Plain
import HeaderAudit.Proofs.Wildcard.Slashes

namespace HeaderAudit

namespace Exclusion

variable {entry : String} {exclusion : Exclusion} {path : Path}

theorem exists_ofEntries_single_iff :
    (∃ exclusion, ofEntries [entry] = .ok exclusion) ↔
      ∃ tokens, Wildcard.parse entry.toList = .ok tokens := by
  rw [exists_ofEntries_iff, List.forall_mem_singleton]

/-- The text of a path is one that the entry is a pattern for. -/
def PatternMatches (entry : String) (path : Path) : Prop :=
  ∃ tokens text,
    Wildcard.parse entry.toList = .ok tokens ∧
      path.text? = some text ∧ Wildcard.Matches tokens text

/-- A path in normal form is excluded as the path that the entry names, or by
its pattern. -/
theorem excludes_single_iff
    (usable : ofEntries [entry] = .ok exclusion)
    (normal : path.normalForm = path) :
    exclusion.excludes path = true ↔
      path = (Path.ofString entry).normalForm ∨ PatternMatches entry path := by
  rw [excludes_iff usable]
  simp only [List.mem_singleton, exists_eq_left, entryExcludes_iff,
    Path.components_normalForm_eq_iff normal, PatternMatches,
    Path.text?_eq_some_iff]

/-- The pattern of an entry without special characters matches the path with
that text and no other path. -/
theorem patternMatches_of_isPlain
    (plain : Wildcard.IsPlain entry.toList) :
    PatternMatches entry path ↔ path = Path.ofString entry := by
  have parsed := Wildcard.parse_of_isPlain plain
  constructor
  · rintro ⟨tokens, text, read, readable, matched⟩
    rw [parsed] at read
    cases read
    rw [Wildcard.matches_literals_iff.1 matched,
      Path.text?_eq_some_iff] at readable
    exact congrArg Path.mk readable
  · rintro rfl
    exact
      ⟨_, _, parsed, Path.text?_ofString entry,
        Wildcard.matches_literals_iff.2 rfl⟩

/-- A path that an entry without `**` is a pattern for has as many slashes as
the entry has outside of its classes. -/
theorem count_slash_of_patternMatches
    (noStars : ¬ ['*', '*'] <:+: entry.toList)
    (matched : PatternMatches entry path) :
    path.bytes.count slash =
      (Wildcard.outsideClasses entry.toList).count '/' := by
  obtain ⟨tokens, text, read, readable, matched⟩ := matched
  rw [Path.count_slash_of_text readable,
    Wildcard.count_slash_of_matches read noStars matched]

/-- An entry without special characters can be used, and of all paths in normal
form it excludes the normal form of the path that it names.  An entry in normal
form that can be used and has no two stars in a row excludes itself and paths
with as many slashes as it has outside of its classes. -/
theorem single_excludes_itself_or_level (entry : String) :
    (Wildcard.IsPlain entry.toList →
      ∃ exclusion, ofEntries [entry] = .ok exclusion ∧
        ∀ path : Path, path.normalForm = path →
          (exclusion.excludes path = true ↔
            path = (Path.ofString entry).normalForm)) ∧
    ∀ exclusion, ofEntries [entry] = .ok exclusion →
      (Path.ofString entry).normalForm = Path.ofString entry →
        ¬ ['*', '*'] <:+: entry.toList →
          ∀ path : Path, path.normalForm = path →
            exclusion.excludes path = true →
              path = Path.ofString entry ∨
                path.bytes.count slash =
                  (Wildcard.outsideClasses entry.toList).count '/' := by
  constructor
  · intro plain
    obtain ⟨exclusion, usable⟩ :=
      exists_ofEntries_single_iff.2 ⟨_, Wildcard.parse_of_isPlain plain⟩
    refine ⟨exclusion, usable, fun path normal => ?_⟩
    rw [excludes_single_iff usable normal, patternMatches_of_isPlain plain]
    constructor
    · rintro (named | spelled)
      · exact named
      · rw [← spelled, normal]
    · exact Or.inl
  · intro exclusion usable entryNormal noStars path normal excluded
    rw [excludes_single_iff usable normal, entryNormal] at excluded
    rcases excluded with named | matched
    · exact Or.inl named
    · exact Or.inr (count_slash_of_patternMatches noStars matched)

/-- What an entry with a slash in a class is read as. -/
def classedExclusion : Exclusion where
  literals := [Path.ofString "lib/[!/]?*.h"]
  patterns :=
    ["lib/".toList.map .literal ++
      [.ofClass true [⟨'/', '/'⟩], .anyChar, .anyText, .literal '.',
        .literal 'h']]

/-- The slash in the class of the entry does not count, and the wildcards take
the dots of the name. -/
theorem classed_excludes_level :
    ofEntries ["lib/[!/]?*.h"] = .ok classedExclusion ∧
      classedExclusion.excludes (Path.ofString "lib/a.b.h") = true ∧
      (Path.ofString "lib/a.b.h").bytes.count slash =
        (Wildcard.outsideClasses "lib/[!/]?*.h".toList).count '/' := by
  have usable : ofEntries ["lib/[!/]?*.h"] = .ok classedExclusion := rfl
  have excluded :
      classedExclusion.excludes (Path.ofString "lib/a.b.h") = true := by
    decide +kernel
  have entryNormal :
      (Path.ofString "lib/[!/]?*.h").normalForm =
        Path.ofString "lib/[!/]?*.h" := by
    decide +kernel
  have noStars : ¬ ['*', '*'] <:+: "lib/[!/]?*.h".toList := by
    decide +kernel
  have normal :
      (Path.ofString "lib/a.b.h").normalForm = Path.ofString "lib/a.b.h" := by
    decide +kernel
  have other : Path.ofString "lib/a.b.h" ≠ Path.ofString "lib/[!/]?*.h" := by
    decide +kernel
  have level :=
    (single_excludes_itself_or_level "lib/[!/]?*.h").2 _ usable entryNormal
      noStars _ normal excluded
  exact ⟨usable, excluded, level.resolve_left other⟩

end Exclusion

end HeaderAudit
