import HeaderAudit.CommandLine.Program
import HeaderAudit.Snapshot

/-! When standard output cannot be written, the answer is the one for an output
without room. -/

namespace HeaderAudit

/-- The files that a list of arguments is about. -/
def pictureFor (arguments : List (List UInt8)) : IO FileTree :=
  match Request.parse arguments with
  | .ok (.run options) => Snapshot.take options.settings
  | _ => pure FileTree.empty

/-- The line that shows an event. -/
def logLine (event : LogEvent) : String :=
  event.level.label ++ " " ++ event.text ++ "\n"

/-- Write the answer and give its exit code. -/
def deliver (result : ProgramResult) : IO UInt32 := do
  (← IO.getStdout).putStr result.stdout
  (← IO.getStdout).flush
  (← IO.getStderr).putStr (result.errorOutput logLine)
  return result.code.toUInt32

/-- Answer a list of arguments. -/
def execute (arguments : List (List UInt8)) : IO UInt32 := do
  let tree ← pictureFor arguments
  let sink : Sink := if ← (← IO.getStdout).isTty then .terminal else .pipe
  try
    deliver (Program.answer tree arguments sink)
  catch _ =>
    let undelivered := Program.answer tree arguments .full
    (← IO.getStderr).putStr (undelivered.errorOutput logLine)
    return undelivered.code.toUInt32

end HeaderAudit

def main (arguments : List String) : IO UInt32 :=
  HeaderAudit.execute (arguments.map fun text => HeaderAudit.Utf8.encode text.toList)
