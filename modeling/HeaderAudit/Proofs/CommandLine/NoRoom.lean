import HeaderAudit.Proofs.CommandLine.Formats

/-! A run without room still examines every candidate that it would examine
otherwise: a failure to do so is told rather than the failure to write. -/

namespace HeaderAudit

namespace Console

/-- There is no room, and nothing was written. -/
structure Refuses (console : Console) : Prop where
  full : console.sink = .full
  nothing : console.written = ""

variable {console : Console}

theorem Refuses.write (refuses : console.Refuses) (text : String) :
    (console.write text).Refuses ∧ (console.write text).broken = true := by
  unfold Console.write
  cases broken : console.broken with
  | false =>
      simp only [refuses.full, Bool.false_eq_true, if_false]
      exact ⟨⟨rfl, refuses.nothing⟩, trivial⟩
  | true =>
      simp only [if_true]
      exact ⟨refuses, broken⟩

end Console

namespace Program

variable {tree : FileTree} {settings : Settings} {report : Report}

/-- What a run leaves behind that failed and wrote nothing. -/
def silentFailure (log : List LogEvent) (error : ProgramError) :
    ProgramResult where
  code := 2
  stdout := ""
  log := log
  stderr := "Error: " ++ error.message ++ "\n"

theorem fail_of_refuses
    {console : Console} (refuses : console.Refuses) (log : List LogEvent)
    (error : ProgramError) :
    fail log console error = silentFailure log error := by
  rw [fail, refuses.nothing, silentFailure]

theorem runHuman_full (tree : FileTree) (settings : Settings) :
    let log := (audit settings announce { sink := .full } tree).log
    runHuman tree settings .full =
      match tree.finding settings with
      | .error cause => silentFailure log (.audit cause)
      | .ok _ => silentFailure log .noSpace := by
  intro log
  have refuses :
      (audit settings announce { sink := .full } tree).watched.Refuses :=
    @holds_after_audit _ announce settings { sink := .full } tree
      (fun world => world.1.Refuses)
      (fun _ _ refuses => (refuses.write _).1) ⟨rfl, rfl⟩
  rw [← outcome_eq_finding announce_keepsTree settings { sink := .full } tree]
  simp only [runHuman]
  cases (audit settings announce { sink := .full } tree).outcome with
  | error cause => exact fail_of_refuses refuses log (.audit cause)
  | ok report =>
      dsimp only
      split
      · exact fail_of_refuses refuses log .noSpace
      · obtain ⟨refusesLater, broken⟩ :=
          refuses.write (summaryFor .full report)
        rw [finish, if_pos broken]
        exact fail_of_refuses refusesLater log .noSpace

theorem runJson_full
    (found : tree.finding settings = .ok report)
    (writable : report.IsUtf8) :
    runJson tree settings .full =
      silentFailure (findingLog tree settings) .noSpace := by
  obtain ⟨document, shown⟩ := Report.exists_document_iff.2 writable
  have undelivered :
      ({ sink := .full } : Console).writeDocument report =
        (.error .noSpace, { sink := .full, broken := true }) := by
    simp [Console.writeDocument, Console.write, shown]
  exact runJson_of_undelivered found undelivered

/-- The error that a run without room ends with: that of the audit if it
fails, else that of a path that a document cannot show, else that of the
output. -/
inductive FailsWithoutRoom (tree : FileTree) (options : Options) :
    ProgramError → Prop
  | audit {cause : Failure} :
      tree.finding options.settings = .error cause →
      FailsWithoutRoom tree options (.audit cause)
  | unwritablePath :
      options.format.getD .human = .json →
      IsUnwritable tree options.settings →
      FailsWithoutRoom tree options .unwritablePath
  | noSpace {report : Report} :
      tree.finding options.settings = .ok report →
      (options.format.getD .human = .json →
        ¬ IsUnwritable tree options.settings) →
      FailsWithoutRoom tree options .noSpace

theorem runHuman_failsWithoutRoom
    {options : Options} (human : options.format.getD .human = .human)
    (tree : FileTree) :
    ∃ log error,
      runHuman tree options.settings .full = silentFailure log error ∧
        FailsWithoutRoom tree options error := by
  rw [runHuman_full]
  cases found : tree.finding options.settings with
  | error cause => exact ⟨_, _, rfl, .audit found⟩
  | ok report =>
      refine ⟨_, _, rfl, .noSpace found fun json => ?_⟩
      rw [human] at json
      cases json

theorem runJson_failsWithoutRoom
    {options : Options} (json : options.format.getD .human = .json)
    (tree : FileTree) :
    ∃ log error,
      runJson tree options.settings .full = silentFailure log error ∧
        FailsWithoutRoom tree options error := by
  cases found : tree.finding options.settings with
  | error cause =>
      rw [runJson_of_error found]
      exact ⟨_, _, rfl, .audit found⟩
  | ok report =>
      have unwritableIff := isUnwritable_iff found
      by_cases writable : report.IsUtf8
      · rw [runJson_full found writable]
        refine ⟨_, _, rfl, .noSpace found fun _ => ?_⟩
        rw [unwritableIff]
        exact not_not.2 writable
      · rw [runJson_of_not_isUtf8 found writable]
        exact ⟨_, _, rfl, .unwritablePath json (unwritableIff.2 writable)⟩

/-- On an output without room a run ends with code 2 and leaves nothing behind
but its log and the message of its error.  In human form it examines the candidates up to the
first that cannot be examined, as it does with room. -/
theorem invoke_without_room
    {arguments : List (List UInt8)} {options : Options}
    (asked : Request.parse arguments = .ok (.run options)) (tree : FileTree) :
    let settings := options.settings
    (∃ log error,
      invoke tree arguments .full =
          .ok ⟨2, "", log, "Error: " ++ error.message ++ "\n"⟩ ∧
        FailsWithoutRoom tree options error) ∧
      (options.format.getD .human = .human →
        Announces tree settings
          (toldPaths settings announce { sink := .full } tree)
          (tree.finding settings)) := by
  intro settings
  constructor
  · cases form : options.format.getD .human with
    | human =>
        rw [invoke_eq_runHuman asked form]
        obtain ⟨log, error, ran, fails⟩ := runHuman_failsWithoutRoom form tree
        exact
          ⟨_, error, congrArg (Except.ok ∘ logAt _) ran, fails⟩
    | json =>
        rw [invoke_eq_runJson asked form]
        obtain ⟨log, error, ran, fails⟩ := runJson_failsWithoutRoom form tree
        exact
          ⟨_, error, congrArg (Except.ok ∘ logAt _) ran, fails⟩
  · intro _
    rw [← outcome_eq_finding announce_keepsTree settings { sink := .full } tree]
    exact announces_toldPaths announce_keepsTree settings _ tree

/-- The file that is no text is told, and not that the file before it could not
be announced. -/
theorem disguisedTree_without_room :
    Request.parse (watching "lib") =
        .ok (.run { includeDirs := [Path.ofString "lib"] }) ∧
      ∃ log,
        invoke disguisedTree (watching "lib") .full =
          .ok
            ⟨2, "", log,
              "Error: " ++
                (Failure.notUtf8 (Path.ofString "lib/b.cpp")).message ++
                  "\n"⟩ := by
  have asked :
      Request.parse (watching "lib") =
        .ok (.run { includeDirs := [Path.ofString "lib"] }) := by
    decide +kernel
  have undecoded :
      disguisedTree.finding
          ({ includeDirs := [Path.ofString "lib"] } : Options).settings =
        .error (.notUtf8 (Path.ofString "lib/b.cpp")) := by
    decide +kernel
  refine ⟨asked, ?_⟩
  obtain ⟨⟨log, error, ran, fails⟩, _⟩ :=
    invoke_without_room asked disguisedTree
  cases fails with
  | audit found =>
      rw [undecoded] at found
      cases found
      exact ⟨log, ran⟩
  | unwritablePath _ unwritable =>
      obtain ⟨report, found, _⟩ := unwritable
      rw [undecoded] at found
      cases found
  | noSpace found _ =>
      rw [undecoded] at found
      cases found

end Program

end HeaderAudit
