import HeaderAudit.Audit
import HeaderAudit.CommandLine.Options
import HeaderAudit.Report.Json
import HeaderAudit.Report.Text

/-! When an announcement cannot be written the audit still goes on: a failure
of the audit is reported before the failure to write. In the JSON form the
output holds the whole document or nothing. -/

namespace HeaderAudit

/-- Where the output of the program goes. -/
inductive Sink where
  | pipe
  | terminal
  | full
  deriving DecidableEq, Repr

/-- The output so far.  After a write that failed nothing more is written. -/
structure Console where
  sink : Sink
  written : String := ""
  broken : Bool := false
  deriving DecidableEq, Repr

/-- Write a text. -/
def Console.write (console : Console) (text : String) : Console :=
  if console.broken then
    console
  else
    match console.sink with
    | .full => { console with broken := true }
    | _ => { console with written := console.written ++ text }

/-- What a program leaves behind when it ends.  The events of the log are shown
on the error output before the text that is written there. -/
structure ProgramResult where
  code : Nat
  stdout : String
  log : List LogEvent
  stderr : String
  deriving DecidableEq, Repr

/-- The whole error output, when events are shown as lines of some form. -/
def ProgramResult.errorOutput
    (line : LogEvent → String) (result : ProgramResult) : String :=
  String.join (result.log.map line) ++ result.stderr

/-- Why a run is not a success, whatever its report says. -/
inductive ProgramError where
  | audit (cause : Failure)
  | unwritablePath
  | noSpace
  deriving DecidableEq, Repr

namespace ProgramError

/-- The wording of a failure. -/
def message : ProgramError → String
  | .audit cause => cause.message
  | .unwritablePath => "path contains invalid UTF-8 characters"
  | .noSpace => "No space left on device (os error 28)"

end ProgramError

/-- Write the document of a report, if it has one, as one text. -/
def Console.writeDocument (console : Console) (report : Report) :
    Except ProgramError Unit × Console :=
  match report.document? with
  | none => (.error .unwritablePath, console)
  | some document =>
      let console := console.write document
      (if console.broken then .error .noSpace else .ok (), console)

namespace Program

/-- The exit code of a run with this report. -/
def exitCode (report : Report) : Nat :=
  if report.ok then 0 else 1

/-- The end of a run that failed. -/
def fail (log : List LogEvent) (console : Console) (error : ProgramError) :
    ProgramResult where
  code := 2
  stdout := console.written
  log := log
  stderr := "Error: " ++ error.message ++ "\n"

/-- The end of a run whose report was written. -/
def finish
    (log : List LogEvent) (console : Console) (report : Report)
    (hints : String) : ProgramResult :=
  if console.broken then
    fail log console .noSpace
  else
    ⟨exitCode report, console.written, log, hints⟩

/-- Announce a candidate on the console. -/
def announce : Watcher Console :=
  fun (console, tree) path =>
    (console.write (Report.progressLine path), tree)

/-- The summary as the output shows it. -/
def summaryFor (sink : Sink) (report : Report) : String :=
  match sink with
  | .terminal => report.terminalSummary
  | _ => report.summary

/-- A run with the report in human form. -/
def runHuman (tree : FileTree) (settings : Settings) (sink : Sink) :
    ProgramResult :=
  let result := audit settings announce { sink } tree
  match result.outcome with
  | .error cause => fail result.log result.watched (.audit cause)
  | .ok report =>
      if result.watched.broken then
        fail result.log result.watched .noSpace
      else
        finish result.log (result.watched.write (summaryFor sink report)) report
          (if report.ok then "" else report.hints)

/-- A run with the report in JSON form. -/
def runJson (tree : FileTree) (settings : Settings) (sink : Sink) :
    ProgramResult :=
  let console : Console := { sink }
  let result := audit settings (fun world _ => world) () tree
  match result.outcome with
  | .error cause => fail result.log console (.audit cause)
  | .ok report =>
      match console.writeDocument report with
      | (.error error, console) => fail result.log console error
      | (.ok _, console) => finish result.log console report ""

/-- The log at a level: that it is ready is logged first, and what is more
detailed than the level is left out. -/
def logAt (level : LogLevel) (result : ProgramResult) : ProgramResult :=
  { result with
    log :=
      (.ready level :: result.log).filter fun event => level.shows event.level }

/-- A run with these options. -/
def run (tree : FileTree) (options : Options) (sink : Sink) : ProgramResult :=
  logAt (.ofVerbosity options.verbosity) <|
    match options.format.getD .human with
    | .human => runHuman tree options.settings sink
    | .json => runJson tree options.settings sink

/-- The line that names the program and its version. -/
def versionLine : String := "notice-check 0.1.0\n"

/-- The text that explains the options. -/
def helpText : String :=
  Report.unlines
    ["Check that source files start with the project's notice.", "",
      "Usage: notice-check [OPTIONS]", "", "Options:",
      "  --root <ROOT>          Project root [default: .]",
      "  --include-dir <DIR>    Directory to scan recursively (repeatable)",
      "  --include-file <FILE>  Individual file to check (repeatable)",
      "  --exclude <PATTERN>    Root-relative paths to skip (repeatable)",
      "  --follow-links         Follow symbolic links while scanning",
      "  --max-depth <N>        Maximum directory traversal depth",
      "  --format <FORMAT>      Report format: human or json [default: human]",
      "  -v, --verbose          Increase log verbosity",
      "  -h, --help             Print help",
      "  -V, --version          Print version"]

/-- What the program does for a list of arguments, or why they ask for
nothing.  Version and help do not mind an output without room. -/
def invoke (tree : FileTree) (arguments : List (List UInt8)) (sink : Sink) :
    Except UsageError ProgramResult := do
  let console : Console := { sink }
  match ← Request.parse arguments with
  | .run options => pure (run tree options sink)
  | .version => pure ⟨0, (console.write versionLine).written, [], ""⟩
  | .help => pure ⟨0, (console.write helpText).written, [], ""⟩

/-- The end of a program whose arguments ask for nothing. -/
def refuse (fault : UsageError) : ProgramResult where
  code := 2
  stdout := ""
  log := []
  stderr := "error: " ++ fault.message ++ "\n"

/-- What the program leaves behind for a list of arguments, whatever they ask
for. -/
def answer (tree : FileTree) (arguments : List (List UInt8)) (sink : Sink) :
    ProgramResult :=
  match invoke tree arguments sink with
  | .ok result => result
  | .error fault => refuse fault

end Program

end HeaderAudit
