import HeaderAudit.Proofs.Audit.Loop
import HeaderAudit.Proofs.Candidates

/-! What a run warns of are special files. The log of a walk is complete
exactly when the walk gives files. -/

namespace HeaderAudit

namespace LogPart

theorem completed_sequence_iff {parts : List LogPart} :
    (sequence parts).completed = true ↔
      ∀ part ∈ parts, part.completed = true := by
  induction parts with
  | nil => simp [sequence]
  | cons first rest inductionHypothesis =>
      change (first.andThen (sequence rest)).completed = true ↔ _
      rw [List.forall_mem_cons, ← inductionHypothesis]
      unfold andThen
      cases ended : first.completed <;> simp [ended]

end LogPart

namespace FileTree

variable
  {tree : FileTree} {settings : Settings} {followLinks : Bool}
  {event : LogEvent}

theorem completed_entryLog_iff
    {ancestors : List Ancestor} {below : Ancestor → LogPart}
    {filesBelow : Ancestor → Except WalkError (List Path)}
    (agree :
      ∀ entered,
        (below entered).completed = true ↔
          ∃ files, filesBelow entered = .ok files)
    {directory : Path} {here : Location} {name : EntryName} :
    (tree.entryLog followLinks ancestors below directory here
        name).completed = true ↔
      ∃ files,
        tree.entryFiles followLinks ancestors filesBelow directory here name =
          .ok files := by
  simp only [entryLog, entryFiles]
  cases
    tree.descent followLinks ancestors (directory.join ⟨name.bytes⟩)
      (name :: here) with
  | error fault => simp
  | ok entered =>
      cases entered with
      | none =>
          refine iff_of_true ?_ ⟨_, rfl⟩
          dsimp only
          split <;> rfl
      | some entered =>
          dsimp only
          rw [agree entered]
          cases filesBelow entered <;> simp

/-- The log of a walk is complete exactly when the walk gives files. -/
theorem completed_logBelow_iff (depth : Nat) :
    ∀ directory outer,
      (tree.logBelow followLinks depth directory outer).completed = true ↔
        ∃ files,
          tree.filesBelow followLinks depth directory outer = .ok files := by
  induction depth with
  | zero => exact fun _ _ => iff_of_true rfl ⟨[], rfl⟩
  | succ depth inductionHypothesis =>
      intro directory outer
      unfold logBelow filesBelow
      cases tree.openDirectory directory.path with
      | error cause => simp
      | ok here =>
          dsimp only
          rw [LogPart.completed_sequence_iff, List.forall_mem_map]
          simp only [map_eq_ok_iff]
          constructor
          · intro completed
            obtain ⟨parts, ran⟩ :=
              exists_mapM_eq_ok fun name listed =>
                (completed_entryLog_iff fun entered =>
                  inductionHypothesis entered (directory :: outer)).1
                    (completed name listed)
            exact ⟨_, parts, ran, rfl⟩
          · intro given name listed
            obtain ⟨_, parts, ran, _⟩ := given
            obtain ⟨part, _, partRan⟩ :=
              exists_ok_of_mapM_eq_ok ran name listed
            exact
              (completed_entryLog_iff fun entered =>
                inductionHypothesis entered (directory :: outer)).2
                  ⟨part, partRan⟩

theorem completed_walkLog_iff {maxDepth : Nat} {directory : Path} :
    (tree.walkLog followLinks maxDepth directory).completed = true ↔
      ∃ files, tree.walk followLinks maxDepth directory = .ok files := by
  unfold walkLog walk
  cases tree.locate directory with
  | error cause => simp
  | ok here => exact completed_logBelow_iff maxDepth _ _

end FileTree

variable
  {state : Type} {watcher : Watcher state} {watched : state}
  {settings : Settings} {tree : FileTree}

end HeaderAudit
