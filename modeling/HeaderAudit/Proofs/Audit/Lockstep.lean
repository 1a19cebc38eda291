import HeaderAudit.Proofs.Audit.Unchanged
import HeaderAudit.Proofs.FileTree.Edits

/-! Two runs over the same candidates come to the same end when every candidate
gets the same verdict in both, at the time that it is told of. -/

namespace HeaderAudit

variable
  {state otherState : Type} {root : Path}
  {watcher : Watcher state} {other : Watcher otherState}

/-- Every candidate gets the same verdict in two runs, each on the tree that
its watcher leaves when it is told of that candidate. -/
def SameVerdicts
    (root : Path) (watcher : Watcher state) (other : Watcher otherState)
    (first : state × FileTree) (second : otherState × FileTree)
    (paths : List Path) : Prop :=
  ∀ before path after,
    paths = before ++ path :: after →
      (watcher.tell first (before ++ [path])).2.examine root path =
        (other.tell second (before ++ [path])).2.examine root path

namespace SameVerdicts

variable
  {first : state × FileTree} {second : otherState × FileTree}
  {path : Path} {rest : List Path}

theorem head
    (same : SameVerdicts root watcher other first second (path :: rest)) :
    (watcher first path).2.examine root path =
      (other second path).2.examine root path :=
  same [] path rest rfl

theorem tail
    (same : SameVerdicts root watcher other first second (path :: rest)) :
    SameVerdicts root watcher other (watcher first path) (other second path)
      rest := by
  intro before tested after split
  exact same (path :: before) tested after (congrArg (path :: ·) split)

end SameVerdicts

theorem Watcher.logged_apply
    (watcher : Watcher state) (log : List Path) (world : state × FileTree)
    (path : Path) :
    watcher.logged ((log, world.1), world.2) path =
      ((log ++ [path], (watcher world path).1), (watcher world path).2) :=
  rfl

theorem gather_of_sameVerdicts {paths : List Path} :
    ∀ {first : state × FileTree} {second : otherState × FileTree},
      SameVerdicts root watcher other first second paths →
        (gather root watcher first paths).1 =
            (gather root other second paths).1 ∧
          ∀ log,
            (gather root watcher.logged ((log, first.1), first.2)
                paths).2.1.1 =
              (gather root other.logged ((log, second.1), second.2)
                paths).2.1.1 := by
  induction paths with
  | nil =>
      intro first second _
      exact ⟨rfl, fun _ => rfl⟩
  | cons path rest inductionHypothesis =>
      intro first second same
      obtain ⟨sameEnd, sameLog⟩ := inductionHypothesis same.tail
      simp only [gather, Watcher.logged_apply, same.head]
      cases (other second path).2.examine root path with
      | error failure => exact ⟨rfl, fun _ => rfl⟩
      | ok verdict =>
          exact ⟨by simp only [sameEnd], fun log => sameLog (log ++ [path])⟩

/-- Two audits with the same verdicts tell of the same candidates and have the
same outcome; only the failures to find candidates may differ, if they do. -/
theorem audit_of_sameVerdicts
    {settings : Settings} {watched : state} {otherWatched : otherState}
    {left right : FileTree}
    (sameFound :
      ∀ candidates,
        left.candidates settings = .ok candidates ↔
          right.candidates settings = .ok candidates)
    (sameVerdicts :
      ∀ candidates, left.candidates settings = .ok candidates →
        SameVerdicts settings.root watcher other (watched, left)
          (otherWatched, right) candidates) :
    toldPaths settings watcher watched left =
        toldPaths settings other otherWatched right ∧
      (left.candidates settings = right.candidates settings →
        (audit settings watcher watched left).outcome =
          (audit settings other otherWatched right).outcome) := by
  cases found : left.candidates settings with
  | error failure =>
      cases otherFound : right.candidates settings with
      | ok candidates =>
          rw [(sameFound candidates).2 otherFound] at found
          cases found
      | error otherFailure =>
          refine
            ⟨by rw [toldPaths_of_error found,
                toldPaths_of_error otherFound], ?_⟩
          intro same
          cases same
          rw [audit_of_lost found, audit_of_lost otherFound]
  | ok candidates =>
      have otherFound := (sameFound candidates).1 found
      obtain ⟨sameEnd, sameLog⟩ :=
        gather_of_sameVerdicts (sameVerdicts candidates found)
      constructor
      · rw [toldPaths_eq_gather found, toldPaths_eq_gather otherFound]
        exact sameLog []
      · intro _
        rw [outcome_eq_gather found, outcome_eq_gather otherFound, sameEnd]

theorem SameVerdicts.of_keepsTree
    {first : state × FileTree} {second : otherState × FileTree}
    {paths : List Path}
    (quiet : watcher.KeepsTree) (otherQuiet : other.KeepsTree)
    (judged :
      ∀ path ∈ paths,
        first.2.examine root path = second.2.examine root path) :
    SameVerdicts root watcher other first second paths := by
  intro before path after split
  have member : path ∈ paths := by
    rw [split]
    exact List.mem_append_cons_self
  rw [quiet.tell_eq, otherQuiet.tell_eq, judged path member]

/-- What the watcher does is the same on related trees, and leaves them
related. -/
def Watcher.Respects
    (watcher : Watcher state) (Related : FileTree → FileTree → Prop) : Prop :=
  ∀ watched left right path, Related left right →
    (watcher (watched, left) path).1 = (watcher (watched, right) path).1 ∧
      Related (watcher (watched, left) path).2
        (watcher (watched, right) path).2

/-- A watcher that makes edits, chosen by what it knows and is told, respects
what edits keep. -/
theorem FileTree.KeptByEdits.respects
    {Related : FileTree → FileTree → Prop}
    (kept : FileTree.KeptByEdits Related)
    (next : state → Path → state) (edits : state → Path → List Edit) :
    Watcher.Respects
      (fun world path =>
        (next world.1 path, world.2.editAll (edits world.1 path)))
      Related :=
  fun _ _ _ _ related => ⟨rfl, kept.editAll _ related⟩

theorem Watcher.Respects.tell
    {Related : FileTree → FileTree → Prop}
    (respects : watcher.Respects Related) (told : List Path) :
    ∀ {first second : state × FileTree},
      first.1 = second.1 → Related first.2 second.2 →
        (watcher.tell first told).1 = (watcher.tell second told).1 ∧
          Related (watcher.tell first told).2
            (watcher.tell second told).2 := by
  induction told with
  | nil => exact fun sameState related => ⟨sameState, related⟩
  | cons path rest inductionHypothesis =>
      intro first second sameState related
      obtain ⟨watched, tree⟩ := first
      obtain ⟨_, otherTree⟩ := second
      cases sameState
      obtain ⟨sameLater, relatedLater⟩ :=
        respects watched tree otherTree path related
      exact inductionHypothesis sameLater relatedLater

end HeaderAudit
