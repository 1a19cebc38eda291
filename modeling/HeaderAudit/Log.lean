import HeaderAudit.Category

/-! The line that shows an event begins with a time and the place in the
program; both are left to whatever writes the log. -/

namespace HeaderAudit

/-- How detailed a log is, from the least to the most. -/
inductive LogLevel where
  | warn
  | info
  | debug
  deriving DecidableEq, Repr

namespace LogLevel

/-- The level that is asked for by giving the switch this many times. -/
def ofVerbosity : Nat → LogLevel
  | 0 => .warn
  | 1 => .info
  | _ => .debug

/-- The name of a level. -/
def label : LogLevel → String
  | .warn => "warn"
  | .info => "info"
  | .debug => "debug"

/-- The place of a level in the order. -/
def detail : LogLevel → Nat
  | .warn => 0
  | .info => 1
  | .debug => 2

/-- A log of the first level shows the events of the second one. -/
def shows (limit level : LogLevel) : Bool :=
  level.detail ≤ limit.detail

end LogLevel

/-- What can be logged in a run. -/
inductive LogEvent where
  | ready (level : LogLevel)
  | noDirectory (directory : Path)
  | notRegular (path : Path)
  | noFile (file : Path)
  | excluded (path : Path)
  | checking (root : Path) (candidates : Nat)
  | checked (path : Path) (category : Category) (valid : Bool)
  | finished (processed violations : Nat)
  deriving DecidableEq, Repr

namespace LogEvent

/-- The level of an event. -/
def level : LogEvent → LogLevel
  | .notRegular _ => .warn
  | .checking _ _ | .finished _ _ => .info
  | _ => .debug

/-- The wording of an event. -/
def message : LogEvent → String
  | .ready level => "Logging initialized at level: " ++ level.label
  | .noDirectory _ => "watched directory not present, skipping"
  | .notRegular _ => "skipping non-regular file"
  | .noFile _ => "named file not present, skipping"
  | .excluded _ => "excluded"
  | .checking _ _ => "checking copyright notices"
  | .checked _ _ _ => "header checked"
  | .finished _ _ => "check finished"

/-- The values that are logged with an event, each under its name. -/
def fields : LogEvent → List (String × String)
  | .ready _ => []
  | .noDirectory directory => [("dir", directory.display)]
  | .notRegular path => [("path", path.display)]
  | .noFile file => [("file", file.display)]
  | .excluded path => [("path", path.display)]
  | .checking root candidates =>
      [("root", root.display), ("candidates", toString candidates)]
  | .checked path category valid =>
      [("path", path.display), ("category", category.label),
        ("valid", toString valid)]
  | .finished processed violations =>
      [("processed", toString processed), ("violations", toString violations)]

/-- The text of an event: its wording, then its values. -/
def text (event : LogEvent) : String :=
  " ".intercalate
    (event.message :: event.fields.map fun field => field.1 ++ "=" ++ field.2)

end LogEvent

/-- What a part of a run logs, and whether the run goes on after it. -/
structure LogPart where
  events : List LogEvent
  completed : Bool
  deriving DecidableEq, Repr

namespace LogPart

/-- One part and, when the run goes on after it, the next one. -/
def andThen (first next : LogPart) : LogPart :=
  if first.completed then
    ⟨first.events ++ next.events, next.completed⟩
  else
    first

/-- Parts one after the other, up to the first that the run does not go on
after. -/
def sequence (parts : List LogPart) : LogPart :=
  parts.foldr andThen ⟨[], true⟩

end LogPart

end HeaderAudit
