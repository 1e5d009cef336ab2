import RationalLisp.CommandLine.Options
import RationalLisp.Session
import RationalLisp.Text.Blank

/-! # The command

Runs a program from the command line or a file, or reads expressions from a terminal. Errors of the
language are reported; any other failure ends the command. -/

namespace RationalLisp

/-- The report of a failure that the command can survive. -/
def Failure.report? : Failure → Option Text
  | error e => some (("error: " : Text) ++ e.message ++ ("\n" : Text))
  | outOfDepth => some ("error: maximum recursion depth exceeded\n" : Text)
  | tooManyDigits | undecodable | unencodable | impossiblePath | inaccessible _ | noFileName
  | noPreludeRoot | limitTooLarge | levelIsText | levelIsTable => none

namespace CommandLine

/-- What the terminal asks the user with. -/
def prompt : Text := "𝝺 "

/-- What a user does at the terminal. -/
inductive Event where
  | line (text : Text)
  | interrupt
  deriving DecidableEq

/-- Print the printed form of a value on a line. -/
def printValue (host : Host) (v : Value) : Run Unit := do
  let t ← Run.display host.depth v
  Run.print (t ++ ("\n" : Text))

/-- Evaluate a line and print its value or the error. A blank line does nothing. -/
def replLine (host : Host) (line : Text) : Run Unit :=
  if line.trim = [] then pure ()
  else fun s =>
    match Session.evalText host line s with
    | .ok v s => printValue host v s
    | .error failure s =>
      match failure.report? with
      | some report => Run.print report s
      | none => .error failure s

/-- Answer one event. -/
def replEvent (host : Host) : Event → Run Unit
  | .interrupt => Run.print "\n"
  | .line t => replLine host t

/-- Ask for lines and answer them until there are no more. -/
def repl (host : Host) : List Event → Run Unit
  | [] => do
    Run.print prompt
    Run.print "\n"
  | event :: rest => do
    Run.print prompt
    replEvent host event
    repl host rest

/-- Write to the error stream, which refuses nothing. -/
def complain (t : Text) : Run Unit :=
  modify fun s =>
    { s with journal := { s.journal with errorStream := s.journal.errorStream.write t.spelled } }

/-- Run a program and tell whether it went well. -/
def runProgram (host : Host) (source : Text) (print : Bool) : Run Bool := fun s =>
  match Session.evalText host source s with
  | .ok v s => (do
      if print then printValue host v
      return true : Run Bool) s
  | .error failure s =>
    match failure.report? with
    | some report => (do
        complain report
        return false : Run Bool) s
    | none => .error failure s

/-- Run the program in a file and tell whether it went well. -/
def runFile (host : Host) (print : Bool) : (path : Option Text) → Run Bool
  | none => throw .noFileName
  | some path =>
    match host.readSource (.ofText path) with
    | .ok source => runProgram host source print
    | .error failure =>
      match failure.report? with
      | some report => do
        complain report
        return false
      | none => throw failure

/-- Do what the options ask for, and tell whether it went well. -/
def execute (host : Host) (o : Options) (events : List Event) : Run Bool := do
  Session.start host o.prelude
  match o.mode with
  | some (.code source print) => runProgram host source print
  | some (.file path print) => runFile host print path
  | some .repl | none => do
    Run.log "silence.repl" .info "Starting REPL"
    repl host events
    return true

/-- How a command ends: with an exit code, or through a failure that nothing reports. -/
inductive Ending where
  | exit (code : Nat)
  | failure (f : Failure)
  deriving DecidableEq

/-- What a command leaves behind. -/
structure Outcome where
  ending : Ending
  output : Text
  errorStream : Text
  deriving DecidableEq

/-- The exit code of a command line that runs nothing. -/
def Usage.exitCode : Usage → Nat
  | help => 0
  | invalid => 2

/-- The state in which a command begins, with the log set up. -/
def begin (host : Host) (o : Options) : Except Failure Store := do
  let (_, journal) ← Journal.empty.setup host o.logLevel none
  return .initial journal

/-- What a finished command leaves behind. -/
def outcome : EStateM.Result Failure Store Bool → Outcome
  | .ok good s => ⟨.exit (if good then 0 else 1), s.output.text, s.journal.errorStream.text⟩
  | .error failure s => ⟨.failure failure, s.output.text, s.journal.errorStream.text⟩

/-- Run what the options ask for. -/
def perform (host : Host) (o : Options) (events : List Event) : Outcome :=
  match begin host o with
  | .error failure => ⟨.failure failure, [], []⟩
  | .ok s => outcome (execute host o events s)

/-- Run the command. -/
def run (host : Host) (words : List Text) (events : List Event) : Except Usage Outcome :=
  (Options.ofWords words).map fun o => perform host o events

end CommandLine

end RationalLisp
