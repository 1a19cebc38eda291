import HeaderAudit.Proofs.Audit.Excluded
import HeaderAudit.Proofs.Candidates.Failures
import HeaderAudit.Proofs.Exclusion.Single
import HeaderAudit.Proofs.Exclusion.Usable

/-! What keeps a path from being a pattern is an opening bracket that is not
closed or two stars that do not fill a component. -/

namespace HeaderAudit

section Runs

variable {state : Type} {watcher : Watcher state} {watched : state}
  {settings : Settings} {tree : FileTree}

/-- Once candidates are found, no entry is at fault. -/
theorem outcome_ne_badExclusion_of_candidates
    {candidates : List Path}
    (found : tree.candidates settings = .ok candidates)
    (bad : Exclusion.BadEntry) :
    (audit settings watcher watched tree).outcome ≠
      .error (.badExclusion bad) := by
  intro failed
  obtain ⟨outcome, final, log, examines, same⟩ :=
    exists_examines watcher watched found
  rw [same] at failed
  cases ended : outcome with
  | ok violations =>
      rw [ended] at failed
      cases failed
  | error failure =>
      rw [ended] at failed
      cases failed
      obtain ⟨_, last, _, examined⟩ := examines.exists_last ended
      rcases FileTree.examine_eq_error_iff.1 examined with
        ⟨_, _, impossible⟩ | ⟨_, _, _, impossible⟩
      · cases impossible
      · cases impossible

/-- A run fails for an entry when it can begin and the list is not usable. -/
theorem outcome_eq_badExclusion_iff {bad : Exclusion.BadEntry} :
    (audit settings watcher watched tree).outcome =
        .error (.badExclusion bad) ↔
      tree.isDirectory settings.root = true ∧
        Exclusion.ofEntries settings.exclude = .error bad := by
  rw [← FileTree.candidates_eq_badExclusion_iff]
  cases found : tree.candidates settings with
  | error failure => simp [audit_of_lost found]
  | ok candidates =>
      simp [outcome_ne_badExclusion_of_candidates found bad]

end Runs

namespace Exclusion

variable {path : Path} {text : List Char}

/-- A path in normal form is excluded by its own name, if that can be an
entry. -/
theorem exists_excluding_ownName
    (normal : path.normalForm = path) (readable : path.text? = some text)
    (isPattern : Wildcard.IsReadable text) :
    ∃ exclusion,
      ofEntries [String.ofList text] = .ok exclusion ∧
        exclusion.excludes path = true := by
  have parsed := Wildcard.exists_parse_iff.2 isPattern
  rw [← String.toList_ofList (l := text)] at parsed
  obtain ⟨exclusion, usable⟩ := exists_ofEntries_single_iff.2 parsed
  refine ⟨exclusion, usable, ?_⟩
  rw [excludes_single_iff usable normal, Path.ofString_of_text readable]
  exact Or.inl normal.symm

theorem exists_ofEntries_error_of_not_isReadable
    (noPattern : ¬ Wildcard.IsReadable text) :
    ∃ cause,
      ofEntries [String.ofList text] =
        .error ⟨String.ofList text, cause⟩ := by
  rw [← Wildcard.exists_parse_iff, ← exists_error_iff] at noPattern
  obtain ⟨cause, failed⟩ := noPattern
  refine ⟨cause, ofEntries_eq_error_iff.2 ⟨[], [], rfl, nofun, ?_⟩⟩
  rw [String.toList_ofList]
  exact failed

end Exclusion

/-- A path in normal form can be excluded by its own name exactly when that is a
pattern.  Then no run with that entry fails for it or examines the path, and
otherwise every run with that entry that can begin fails for it.  Without an
opening bracket and two stars in a row, a name is always a pattern. -/
theorem excluded_by_own_name
    {path : Path} {text : List Char}
    (normal : path.normalForm = path) (readable : path.text? = some text) :
    let entry := String.ofList text
    (Wildcard.IsReadable text →
      (∃ exclusion,
        Exclusion.ofEntries [entry] = .ok exclusion ∧
          exclusion.excludes path = true) ∧
      ∀ (state : Type) (settings : Settings) (watcher : Watcher state)
          (watched : state) (tree : FileTree),
        let run := audit (settings.excluding [entry]) watcher watched tree
        (∀ bad, run.outcome ≠ .error (.badExclusion bad)) ∧
          path ∉
            toldPaths (settings.excluding [entry]) watcher watched tree) ∧
    (¬ Wildcard.IsReadable text →
      ∃ cause,
        Exclusion.ofEntries [entry] = .error ⟨entry, cause⟩ ∧
          ∀ (state : Type) (settings : Settings) (watcher : Watcher state)
              (watched : state) (tree : FileTree),
            tree.isDirectory settings.root = true →
              (audit (settings.excluding [entry]) watcher watched
                  tree).outcome =
                .error (.badExclusion ⟨entry, cause⟩)) ∧
    ('[' ∉ text → ¬ ['*', '*'] <:+: text → Wildcard.IsReadable text) := by
  intro entry
  refine ⟨?_, ?_, ?_⟩
  · intro isPattern
    obtain ⟨exclusion, usable, excluded⟩ :=
      Exclusion.exists_excluding_ownName normal readable isPattern
    refine ⟨⟨exclusion, usable, excluded⟩, ?_⟩
    intro state settings watcher watched tree run
    constructor
    · intro bad failed
      have unusable := (outcome_eq_badExclusion_iff.1 failed).2
      rw [Settings.excluding_exclude, usable] at unusable
      cases unusable
    · intro told
      have kept := excludes_eq_false_of_told usable told
      rw [excluded] at kept
      cases kept
  · intro noPattern
    obtain ⟨cause, unusable⟩ :=
      Exclusion.exists_ofEntries_error_of_not_isReadable noPattern
    refine ⟨cause, unusable, ?_⟩
    intro state settings watcher watched tree there
    exact outcome_eq_badExclusion_iff.2 ⟨there, unusable⟩
  · intro noOpen noStars
    obtain ⟨tokens, reads⟩ :=
      Wildcard.exists_reads_of_harmless noOpen noStars true
    exact
      Wildcard.exists_parse_iff.1 ⟨tokens, Wildcard.parse_eq_ok_iff.2 reads⟩

/-- A name with a class does not match itself, and yet it excludes the path
that it is. -/
theorem classedName_excludes :
    ∃ exclusion,
      Exclusion.ofEntries [String.ofList "lib/a[1].cpp".toList] =
          .ok exclusion ∧
        exclusion.excludes (Path.ofString "lib/a[1].cpp") = true := by
  have normal :
      (Path.ofString "lib/a[1].cpp").normalForm =
        Path.ofString "lib/a[1].cpp" := by
    decide
  have readable := Path.text?_ofString "lib/a[1].cpp"
  have isPattern : Wildcard.IsReadable "lib/a[1].cpp".toList :=
    Wildcard.exists_parse_iff.1 ⟨_, rfl⟩
  exact ((excluded_by_own_name normal readable).1 isPattern).1

/-- The name of a file that no list can have as an entry. -/
theorem openName_unusable :
    (Path.ofString "[").normalForm = Path.ofString "[" ∧
      (Path.ofString "[").isAbsolute = false ∧
      (Path.ofString "[").text? = some ['['] ∧
      Exclusion.ofEntries ["["] = .error ⟨"[", ⟨0, .openClass⟩⟩ := by
  decide

end HeaderAudit
