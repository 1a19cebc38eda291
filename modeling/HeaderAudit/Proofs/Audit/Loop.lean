import HeaderAudit.Proofs.Audit.Verdict

/-! `gather` lists the violations in the order in which they are found. The
loop keeps a set of them, a count and a log on its way, and comes to the same.
-/

namespace HeaderAudit

variable {state : Type} {root : Path} {watcher : Watcher state}

/-- The violations among candidates that are examined one after the other, or
the first failure, and what the watcher left. -/
def gather (root : Path) (watcher : Watcher state) :
    state × FileTree → List Path →
      Except Failure (List Violation) × state × FileTree
  | world, [] => (.ok [], world)
  | world, path :: rest =>
      let (watched, tree) := watcher world path
      match tree.examine root path with
      | .error failure => (.error failure, watched, tree)
      | .ok verdict =>
          let (later, world) := gather root watcher (watched, tree) rest
          (later.map (verdict.toList ++ ·), world)

/-- What the watcher has left so far. -/
def Progress.world (progress : Progress state) : state × FileTree :=
  (progress.watched, progress.tree)

theorem Progress.violations_count
    (path : Path) (verdict : Option Violation) (progress : Progress state) :
    (progress.count path verdict).violations =
      OrderedSet.insertAll progress.violations verdict.toList := by
  cases verdict <;> rfl

section Step

variable {path : Path} {rest : List Path}

theorem gather_of_error
    {world : state × FileTree} {failure : Failure}
    (examined : (watcher world path).2.examine root path = .error failure) :
    gather root watcher world (path :: rest) =
      (.error failure, watcher world path) := by
  simp only [gather, examined]

theorem gather_of_ok
    {world : state × FileTree} {verdict : Option Violation}
    (examined : (watcher world path).2.examine root path = .ok verdict) :
    gather root watcher world (path :: rest) =
      ((gather root watcher (watcher world path) rest).1.map
          (verdict.toList ++ ·),
        (gather root watcher (watcher world path) rest).2) := by
  simp only [gather, examined]

theorem examineAll_of_error
    {progress : Progress state} {failure : Failure}
    (examined :
      (watcher progress.world path).2.examine root path = .error failure) :
    examineAll root watcher progress (path :: rest) =
      (.error failure, progress.tell watcher path) := by
  rw [Progress.world] at examined
  simp only [examineAll, Progress.tell, examined]

theorem examineAll_of_ok
    {progress : Progress state} {verdict : Option Violation}
    (examined :
      (watcher progress.world path).2.examine root path = .ok verdict) :
    examineAll root watcher progress (path :: rest) =
      examineAll root watcher
        ((progress.tell watcher path).count path verdict) rest := by
  rw [Progress.world] at examined
  simp only [examineAll, Progress.tell, examined]

end Step

/-- The loop leaves what the list of violations leaves and fails when that
does.  Otherwise it has counted every candidate and inserted every
violation. -/
theorem examineAll_of_gather (paths : List Path) :
    ∀ {progress : Progress state}
      {outcome : Except Failure (List Violation)} {final : state × FileTree},
      gather root watcher progress.world paths = (outcome, final) →
        (examineAll root watcher progress paths).2.world = final ∧
          match outcome with
          | .error failure =>
              (examineAll root watcher progress paths).1 = .error failure
          | .ok violations =>
              (examineAll root watcher progress paths).1 = .ok () ∧
                (examineAll root watcher progress paths).2.processed =
                  progress.processed + paths.length ∧
                (examineAll root watcher progress paths).2.violations =
                  OrderedSet.insertAll progress.violations violations := by
  induction paths with
  | nil =>
      intro progress outcome final gathered
      cases gathered
      exact ⟨rfl, rfl, rfl, rfl⟩
  | cons path rest inductionHypothesis =>
      intro progress outcome final gathered
      cases examined :
          (watcher progress.world path).2.examine root path with
      | error failure =>
          rw [gather_of_error examined] at gathered
          cases gathered
          rw [examineAll_of_error examined]
          exact ⟨rfl, rfl⟩
      | ok verdict =>
          rw [gather_of_ok examined] at gathered
          rw [examineAll_of_ok examined]
          cases later : gather root watcher (watcher progress.world path) rest with
          | mk ending left =>
              rw [later] at gathered
              cases gathered
              obtain ⟨sameWorld, ended⟩ :=
                @inductionHypothesis
                  ((progress.tell watcher path).count path verdict) _ _ later
              refine ⟨sameWorld, ?_⟩
              cases ending with
              | error failure => exact ended
              | ok violations =>
                  obtain ⟨succeeded, counted, inserted⟩ := ended
                  refine ⟨succeeded, ?_, ?_⟩
                  · rw [counted, List.length_cons]
                    change progress.processed + 1 + rest.length = _
                    omega
                  · rw [inserted, Progress.violations_count]
                    exact (List.foldl_append ..).symm

end HeaderAudit
