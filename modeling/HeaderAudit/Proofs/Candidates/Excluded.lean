import HeaderAudit.Proofs.Candidates

/-! Nothing is excluded before everything was found. -/

namespace HeaderAudit

/-- The same settings with another exclusion list. -/
def Settings.excluding
    (settings : Settings) (entries : List String) : Settings :=
  { settings with exclude := entries }

section Fields

variable {settings : Settings} {entries : List String}

@[simp] theorem Settings.excluding_root :
    (settings.excluding entries).root = settings.root :=
  rfl

@[simp] theorem Settings.excluding_includeDirs :
    (settings.excluding entries).includeDirs = settings.includeDirs :=
  rfl

@[simp] theorem Settings.excluding_exclude :
    (settings.excluding entries).exclude = entries :=
  rfl

/-- What a directory gives does not depend on what is excluded. -/
@[simp] theorem FileTree.watchedFiles_excluding (tree : FileTree) :
    tree.watchedFiles (settings.excluding entries) =
      tree.watchedFiles settings :=
  rfl

@[simp] theorem FileTree.namedFiles_excluding (tree : FileTree) :
    tree.namedFiles (settings.excluding entries) =
      tree.namedFiles settings :=
  rfl

end Fields

theorem Exclusion.excludes_of_no_entries (path : Path) :
    (⟨[], []⟩ : Exclusion).excludes path = false := by
  unfold excludes
  cases path.text? <;> rfl

namespace FileTree

variable {tree : FileTree} {settings : Settings} {entries : List String}

theorem Yields.excluding
    {source path : Path} (yields : tree.Yields settings source path) :
    tree.Yields (settings.excluding entries) source path := by
  cases yields with
  | walked member there walked sourceMember =>
      exact .walked member there walked sourceMember
  | named member there => exact .named member there

theorem yields_excluding_iff {source path : Path} :
    tree.Yields (settings.excluding entries) source path ↔
      tree.Yields settings source path := by
  constructor
  · intro yields
    -- Excluding what was excluded at first gives the settings back.
    exact
      @Yields.excluding _ (settings.excluding entries) settings.exclude _ _
        yields
  · exact Yields.excluding

/-- With a usable list, finding candidates fails as it does without one, and
otherwise gives the same candidates less the excluded ones. -/
theorem candidates_excluding
    {exclusion : Exclusion}
    (usable : Exclusion.ofEntries entries = .ok exclusion)
    (tree : FileTree) (settings : Settings) :
    tree.candidates (settings.excluding entries) =
      (List.filter fun path => !exclusion.excludes path) <$>
        tree.candidates (settings.excluding []) := by
  have nothing : Exclusion.ofEntries [] = .ok ⟨[], []⟩ := rfl
  unfold FileTree.candidates
  simp only [Settings.excluding_root, Settings.excluding_exclude,
    Settings.excluding_includeDirs, watchedFiles_excluding,
    namedFiles_excluding, usable, nothing]
  cases tree.isDirectory settings.root with
  | false => rfl
  | true =>
      cases settings.includeDirs.mapM (tree.watchedFiles settings) with
      | error failure => rfl
      | ok watched =>
          have all (found : List Path) :
              (found.filter fun path =>
                !(⟨[], []⟩ : Exclusion).excludes path) = found :=
            List.filter_eq_self.2 fun path _ => by
              rw [Exclusion.excludes_of_no_entries]
              rfl
          change
            Except.ok _ = Except.ok (List.filter _ (List.filter _ _))
          rw [all]

theorem candidates_excluding_eq_ok
    {exclusion : Exclusion} {candidates : List Path}
    (usable : Exclusion.ofEntries entries = .ok exclusion)
    (found : tree.candidates (settings.excluding []) = .ok candidates) :
    tree.candidates (settings.excluding entries) =
      .ok (candidates.filter fun path => !exclusion.excludes path) := by
  rw [candidates_excluding usable, found]
  rfl

theorem excludes_eq_false_of_candidate
    {exclusion : Exclusion} {candidates : List Path} {path : Path}
    (usable : Exclusion.ofEntries entries = .ok exclusion)
    (found : tree.candidates (settings.excluding entries) = .ok candidates)
    (member : path ∈ candidates) :
    exclusion.excludes path = false := by
  rw [candidates_excluding usable] at found
  obtain ⟨all, _, rfl⟩ := map_eq_ok_iff.1 found
  simpa using (List.mem_filter.1 member).2

theorem exists_candidates_excluding_append_iff {former latter : List String} :
    (∃ whole,
        tree.candidates (settings.excluding (former ++ latter)) =
          .ok whole) ↔
      (∃ candidates,
          tree.candidates (settings.excluding former) = .ok candidates) ∧
        ∃ candidates,
          tree.candidates (settings.excluding latter) = .ok candidates := by
  simp only [exists_candidates_iff, Settings.excluding_root,
    Settings.excluding_includeDirs, Settings.excluding_exclude,
    watchedFiles_excluding, Exclusion.exists_ofEntries_append_iff]
  tauto

theorem mem_candidates_excluding_append_iff
    {former latter : List String}
    {whole candidates otherCandidates : List Path}
    (found :
      tree.candidates (settings.excluding (former ++ latter)) = .ok whole)
    (formerFound :
      tree.candidates (settings.excluding former) = .ok candidates)
    (latterFound :
      tree.candidates (settings.excluding latter) = .ok otherCandidates)
    (path : Path) :
    path ∈ whole ↔ path ∈ candidates ∧ path ∈ otherCandidates := by
  rw [mem_candidates_iff_yields found, mem_candidates_iff_yields formerFound,
    mem_candidates_iff_yields latterFound]
  simp only [Settings.excluding_exclude, yields_excluding_iff,
    List.forall_mem_append]
  tauto

end FileTree

end HeaderAudit
