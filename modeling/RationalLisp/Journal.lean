import RationalLisp.Host.Writing
import RationalLisp.Text.Tape

/-! # The log

Messages of enough weight are written as lines to the error stream or to a file. Only the first
setup chooses where they go and what weighs enough. -/

namespace RationalLisp

/-- The weight of a message. -/
inductive Severity where
  | debug | info | warning | error | critical
  deriving DecidableEq

namespace Severity

/-- The name that stands in a line of the log. -/
def name : Severity → Text
  | debug => "DEBUG"
  | info => "INFO"
  | warning => "WARNING"
  | error => "ERROR"
  | critical => "CRITICAL"

/-- The place of a severity on the scale of levels. -/
def rank : Severity → Nat
  | debug => 10
  | info => 20
  | warning => 30
  | error => 40
  | critical => 50

/-- The levels by name. -/
def levels : List (Text × Nat) :=
  [("NOTSET", 0), ("DEBUG", 10), ("INFO", 20), ("WARN", 30), ("WARNING", 30), ("ERROR", 40),
    ("CRITICAL", 50), ("FATAL", 50)]

/-- The least rank that a level lets through. An unknown name is as good as a warning. Two names
are no levels, since the log's own formats go by them. -/
def threshold (level : Text) : Except Failure Nat :=
  if level = Text.ofString "BASIC_FORMAT" then .error .levelIsText
  else if level = Text.ofString "_STYLES" then .error .levelIsTable
  else .ok ((levels.lookup level).getD warning.rank)

end Severity

/-- Where lines of the log go. Before any setup, bare messages go to the error stream. -/
inductive Sink where
  | unset
  | errorStream
  | file (place : Location)
  deriving DecidableEq

/-- The log so far: what was written to the error stream and what to the log file. -/
structure Journal where
  sink : Sink
  threshold : Nat
  errorStream : Tape
  file : Tape
  deriving DecidableEq

namespace Journal

/-- The log before any setup. -/
def empty : Journal := ⟨.unset, Severity.warning.rank, .empty, .empty⟩

/-- The name of a logger in a line of the log. The logger without a name is the root of all. -/
def loggerName (logger : Text) : Text := if logger = [] then "root" else logger

/-- A line of the log. -/
def line (logger : Text) (severity : Severity) (message : Text) : Text :=
  loggerName logger ++ (" - " : Text) ++ severity.name ++ (" - " : Text) ++ message ++ ("\n" : Text)

/-- Log a message. Neither the error stream nor a file refuses any of it. -/
def record (j : Journal) (logger : Text) (severity : Severity) (message : Text) : Journal :=
  if severity.rank < j.threshold then j
  else match j.sink with
    | .unset => { j with errorStream := j.errorStream.write (message ++ ("\n" : Text)).spelled }
    | .errorStream =>
      { j with errorStream := j.errorStream.write (line logger severity message).spelled }
    | .file _ => { j with file := j.file.write (line logger severity message).spelled }

/-- The level name that a setup uses: the given one, or the one that is set. -/
def levelName (host : Host) (level : Option Text) : Text :=
  match level with
  | none | some [] => host.logLevel
  | some name => name.upper

/-- Whether a setup has been done. -/
def isSetUp (j : Journal) : Bool := j.sink ≠ .unset

/-- The file that a setup names. An empty name is none. -/
def fileName? : Option Text → Option Text
  | none | some [] => none
  | some file => some file

/-- Open what lines are to go to: a file, or the error stream if none is named. -/
def openSink (host : Host) : (file : Option Text) → Except Failure (Host × Sink)
  | none => .ok (host, .errorStream)
  | some file => do
    let (host, place) ← host.openFile file
    return (host, .file place)

/-- Choose where lines go and what weighs enough, unless that has been done before. -/
def configure (host : Host) (name : Text) (file : Option Text) (j : Journal) :
    Except Failure (Host × Journal) :=
  if j.isSetUp then .ok (host, j)
  else do
    let (host, sink) ← openSink host file
    let threshold ← Severity.threshold name
    return (host, { j with sink := sink, threshold := threshold })

/-- Set the log up and announce the level. The directory of the file is made every time. -/
def setup (host : Host) (level file : Option Text) (j : Journal) :
    Except Failure (Host × Journal) := do
  let name := levelName host level
  let file := fileName? file
  let host ← match file with
    | none => .ok host
    | some file => host.makeRoom file
  let (host, j) ← configure host name file j
  return (host, j.record "silence.log" .debug
    (("Logging initialized at " : Text) ++ name ++ (" level" : Text)))

/-- The files after the log file has been written: the log is added to it. -/
def flush (host : Host) (j : Journal) : Host :=
  match j.sink with
  | .file place => host.appendText place j.file.text
  | _ => host

end Journal

end RationalLisp
