import HeaderAudit.Proofs.Audit.Quiet
import HeaderAudit.Proofs.CommandLine.Arguments
import HeaderAudit.Proofs.CommandLine.Delivery
import HeaderAudit.Proofs.CommandLine.Human

namespace HeaderAudit

namespace Program

variable
  {tree : FileTree} {settings : Settings} {sink : Sink} {report : Report}

theorem exitCode_ne_two (report : Report) : exitCode report ≠ 2 := by
  rw [exitCode]
  split <;> decide

theorem code_runHuman (roomy : sink ≠ .full) :
    (runHuman tree settings sink).code =
      match tree.finding settings with
      | .error _ => 2
      | .ok report => exitCode report := by
  have accepts : (audit settings announce { sink } tree).watched.Accepts :=
    @holds_after_audit _ announce settings { sink } tree
      (fun world => world.1.Accepts)
      (fun _ _ accepts => accepts.write _) ⟨roomy, rfl⟩
  rw [← outcome_eq_finding announce_keepsTree settings { sink } tree]
  simp only [runHuman]
  cases (audit settings announce { sink } tree).outcome with
  | error failure => rfl
  | ok report =>
      simp only [accepts.intact, finish, (accepts.write _).intact,
        Bool.false_eq_true, if_false]

/-- What a run that nothing interferes with logs. -/
def findingLog (tree : FileTree) (settings : Settings) : List LogEvent :=
  (audit settings Watcher.silent () tree).log

theorem runJson_of_error
    {failure : Failure} (failed : tree.finding settings = .error failure) :
    runJson tree settings sink =
      fail (findingLog tree settings) { sink } (.audit failure) := by
  change (audit settings (fun world _ => world) () tree).outcome = _ at failed
  simp only [runJson, failed]
  rfl

theorem runJson_of_undelivered
    {error : ProgramError} {console : Console}
    (found : tree.finding settings = .ok report)
    (undelivered :
      ({ sink } : Console).writeDocument report = (.error error, console)) :
    runJson tree settings sink =
      fail (findingLog tree settings) console error := by
  change (audit settings (fun world _ => world) () tree).outcome = _ at found
  simp only [runJson, found, undelivered]
  rfl

theorem runJson_of_delivered
    {console : Console}
    (found : tree.finding settings = .ok report)
    (delivered :
      ({ sink } : Console).writeDocument report = (.ok (), console)) :
    runJson tree settings sink =
      finish (findingLog tree settings) console report "" := by
  change (audit settings (fun world _ => world) () tree).outcome = _ at found
  simp only [runJson, found, delivered]
  rfl

theorem runJson_of_not_isUtf8
    (found : tree.finding settings = .ok report)
    (unwritable : ¬ report.IsUtf8) :
    runJson tree settings sink =
      fail (findingLog tree settings) { sink } .unwritablePath :=
  runJson_of_undelivered found
    (Console.writeDocument_of_not_isUtf8 unwritable)

theorem runJson_of_document
    {document : String} (roomy : sink ≠ .full)
    (found : tree.finding settings = .ok report)
    (shown : report.document? = some document) :
    runJson tree settings sink =
      ⟨exitCode report, document, findingLog tree settings, ""⟩ := by
  have accepts : ({ sink } : Console).Accepts := ⟨roomy, rfl⟩
  rw [runJson_of_delivered found (accepts.writeDocument_eq shown)]
  simp only [finish, Bool.false_eq_true, if_false, String.empty_append]

theorem invoke_eq_runJson
    {arguments : List (List UInt8)} {options : Options}
    (asked : Request.parse arguments = .ok (.run options))
    (json : options.format.getD .human = .json)
    (tree : FileTree) (sink : Sink) :
    invoke tree arguments sink =
      .ok
        (logAt (.ofVerbosity options.verbosity)
          (runJson tree options.settings sink)) := by
  unfold invoke
  rw [asked]
  simp only [bind, Except.bind, pure, Except.pure, run, json]

end Program

/-- A document with a newline behind it has no line that announces. -/
theorem Json.IsDocument.announces_nothing
    {text : List Char} (isDocument : Json.IsDocument text) :
    ∀ line ∈ Text.lines (text ++ ['\n']), ¬ "Processing ".toList <+: line := by
  have ending : ∀ atStart, Text.BeginsNoLine 'P' atStart ['\n'] :=
    Json.beginsNoLine_cons (by decide) Json.beginsNoLine_nil
  have begins := (Json.IsPadded.beginsNoLine isDocument true).append ending
  intro line member prefixed
  have first := (begins.head?_ne _).2 rfl line member
  obtain ⟨rest, rfl⟩ := prefixed
  exact first rfl

namespace Program

variable
  {tree : FileTree} {settings : Settings} {sink : Sink} {report : Report}

/-- The run has a report, and the root or a violating path is not UTF-8. -/
def IsUnwritable (tree : FileTree) (settings : Settings) : Prop :=
  ∃ report,
    tree.finding settings = .ok report ∧
      (¬ settings.root.IsUtf8 ∨
        ∃ violation ∈ report.violations, ¬ violation.path.IsUtf8)

theorem isUnwritable_iff (found : tree.finding settings = .ok report) :
    IsUnwritable tree settings ↔ ¬ report.IsUtf8 := by
  obtain ⟨_, _, sameRoot, _⟩ := FileTree.exists_candidates_of_finding found
  simp only [IsUnwritable, found, Except.ok.injEq, exists_eq_left',
    Report.IsUtf8, sameRoot, not_and_or, not_forall, exists_prop]

/-- The output holds one document, with a newline at its end, and the document
shows the report. -/
def ShowsDocument (stdout : String) (report : Report) : Prop :=
  ∃ text,
    stdout = String.ofList (text ++ ['\n']) ∧
      Json.IsDocument text ∧
      Report.ofDocument? stdout.toList = some report ∧
      ∀ line ∈ Text.lines stdout.toList, ¬ "Processing ".toList <+: line

theorem runJson_showsDocument
    (roomy : sink ≠ .full) (found : tree.finding settings = .ok report)
    (writable : report.IsUtf8) :
    let result := runJson tree settings sink
    result.code = exitCode report ∧ ShowsDocument result.stdout report := by
  obtain ⟨document, shown⟩ := Report.exists_document_iff.2 writable
  obtain ⟨text, split, isDocument, recovered⟩ := Report.of_document? shown
  rw [runJson_of_document roomy found shown]
  refine ⟨rfl, text, ?_, isDocument, recovered, ?_⟩
  · rw [← split, String.ofList_toList]
  · rw [split]
    exact isDocument.announces_nothing

theorem runs_agree (roomy : sink ≠ .full) :
    let json := runJson tree settings sink
    let human := runHuman tree settings sink
    (json.code ≠ human.code ↔ IsUnwritable tree settings) ∧
      (IsUnwritable tree settings → json.code = 2 ∧ json.stdout = "") ∧
      (json.code = 2 ∧ json.stdout = "" ∨
        json.code ≠ 2 ∧
          ∃ report,
            tree.finding settings = .ok report ∧
              ShowsDocument json.stdout report) := by
  intro json human
  have humanCode : human.code = _ := code_runHuman roomy
  cases found : tree.finding settings with
  | error failure =>
      have jsonEq : json = fail _ { sink } (.audit failure) :=
        runJson_of_error found
      have writable : ¬ IsUnwritable tree settings := by
        simp [IsUnwritable, found]
      rw [found] at humanCode
      rw [jsonEq, humanCode]
      exact
        ⟨iff_of_false (fun differ => differ rfl) writable,
          fun _ => ⟨rfl, rfl⟩, Or.inl ⟨rfl, rfl⟩⟩
  | ok report =>
      rw [found] at humanCode
      rw [isUnwritable_iff found, humanCode]
      by_cases writable : report.IsUtf8
      · have shown := runJson_showsDocument roomy found writable
        refine ⟨?_, absurd writable, Or.inr ⟨?_, report, rfl, shown.2⟩⟩
        · exact
            iff_of_false (fun differ => differ shown.1) (not_not.2 writable)
        · rw [shown.1]
          exact exitCode_ne_two report
      · have jsonEq : json = fail _ { sink } .unwritablePath :=
          runJson_of_not_isUtf8 found writable
        rw [jsonEq]
        exact
          ⟨iff_of_true (exitCode_ne_two report).symm writable,
            fun _ => ⟨rfl, rfl⟩, Or.inl ⟨rfl, rfl⟩⟩

/-- With the format as the only difference, a run ends with the same code in
both forms unless it is unwritable in JSON; a run in JSON form writes its whole
document or fails and writes nothing. -/
theorem invoke_formats_agree
    (roomy : sink ≠ .full) (before after : List (List UInt8)) (joined : Bool)
    {request : Request}
    (asked :
      Request.parse (before ++ Format.json.arguments joined ++ after) =
        .ok request)
    (tree : FileTree) :
    ∃ json human,
      invoke tree (before ++ Format.json.arguments joined ++ after) sink =
          .ok json ∧
        invoke tree (before ++ Format.human.arguments joined ++ after) sink =
          .ok human ∧
        match request with
        | .run options =>
            (json.code ≠ human.code ↔
                IsUnwritable tree options.settings) ∧
              (IsUnwritable tree options.settings →
                json.code = 2 ∧ json.stdout = "") ∧
              (json.code = 2 ∧ json.stdout = "" ∨
                json.code ≠ 2 ∧
                  ∃ report,
                    tree.finding options.settings = .ok report ∧
                      ShowsDocument json.stdout report)
        | .version => json = human
        | .help => json = human := by
  have askedAgain :
      Request.parse (before ++ Format.json.arguments joined ++ after) =
        (Request.parse (before ++ Format.json.arguments joined ++ after)).map
          (Request.withFormat .json) :=
    Request.ofArguments_change_format _ _ joined after before {}
  have askedHuman :
      Request.parse (before ++ Format.human.arguments joined ++ after) =
        (Request.parse (before ++ Format.json.arguments joined ++ after)).map
          (Request.withFormat .human) :=
    Request.ofArguments_change_format _ _ joined after before {}
  rw [asked] at askedHuman askedAgain
  cases request with
  | version =>
      exact
        ⟨_, _, by rw [invoke, asked]; rfl, by rw [invoke, askedHuman]; rfl, rfl⟩
  | help =>
      exact
        ⟨_, _, by rw [invoke, asked]; rfl, by rw [invoke, askedHuman]; rfl, rfl⟩
  | run options =>
      have isJson : options.format.getD .human = .json := by
        rw [Request.run.inj (Except.ok.inj askedAgain)]
        rfl
      refine
        ⟨_, _, invoke_eq_runJson asked isJson tree sink,
          invoke_eq_runHuman askedHuman rfl tree sink, ?_⟩
      exact runs_agree roomy

/-- A path that is not UTF-8. -/
def unnamedPath : Path :=
  ⟨[0x61, 0xFF]⟩

/-- A tree with an empty directory at that path. -/
def unnamedTree : FileTree :=
  FileTree.empty.editAll [.directory unnamedPath]

/-- The arguments of a run in that directory. -/
def unnamedArguments : List (List UInt8) :=
  [Utf8.encode "--root".toList, unnamedPath.bytes]

/-- The options of such a run in JSON form. -/
def unnamedOptions : Options where
  root := some unnamedPath
  format := some .json

theorem unnamedTree_isUnwritable :
    IsUnwritable unnamedTree unnamedOptions.settings := by
  have found :
      unnamedTree.finding unnamedOptions.settings =
        .ok ⟨unnamedPath, 0, true, []⟩ := by
    decide +kernel
  have unnamed : unnamedPath.text? = none := by
    decide +kernel
  refine ⟨_, found, Or.inl ?_⟩
  intro ⟨text, named⟩
  change unnamedPath.text? = some text at named
  rw [unnamed] at named
  cases named

/-- The run in human form is a success, and the run in JSON form fails. -/
theorem unnamedTree_formats :
    Request.parse (unnamedArguments ++ Format.json.arguments true ++ []) =
        .ok (.run unnamedOptions) ∧
      ∃ json human,
        invoke unnamedTree
            (unnamedArguments ++ Format.json.arguments true ++ []) .pipe =
              .ok json ∧
          invoke unnamedTree
              (unnamedArguments ++ Format.human.arguments true ++ []) .pipe =
                .ok human ∧
            json.code = 2 ∧ json.stdout = "" ∧ human.code ≠ 2 := by
  have roomy : Sink.pipe ≠ .full := nofun
  have asked :
      Request.parse (unnamedArguments ++ Format.json.arguments true ++ []) =
        .ok (.run unnamedOptions) := by
    decide +kernel
  obtain ⟨json, human, ranJson, ranHuman, differ, failed, _⟩ :=
    invoke_formats_agree roomy unnamedArguments [] true asked unnamedTree
  obtain ⟨code, silent⟩ := failed unnamedTree_isUnwritable
  have codes := differ.2 unnamedTree_isUnwritable
  rw [code] at codes
  exact ⟨asked, json, human, ranJson, ranHuman, code, silent, codes.symm⟩

end Program

end HeaderAudit
