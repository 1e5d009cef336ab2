import RationalLisp.CommandLine

/-! # The command on a real system

The pure command sees the files it is given. An import of another file ends a run with that file's
name, so the file is fetched and the run is done again, until nothing more is found. Nothing is
written before that, so no output is seen twice. -/

namespace RationalLisp.Main

open CommandLine

/-- The settings that are read from the environment. -/
def settings : List String :=
  ["SILENCE_PATH", "SILENCE_PRELUDE_PATH", "SILENCE_RECURSION_LIMIT", "SILENCE_LOG_LEVEL"]

/-- Add the file at a path to a host that does not know it; none if there is no such file. -/
def fetch (host : Host) (p : Path) : IO (Option Host) := do
  if host.isFile p matches .ok true then return none
  try
    let content ← IO.FS.readBinFile p.toText.asString
    let place := (host.workingDirectory ++ p).parts
    return some { host with tree := host.tree.putFile place content.toList }
  catch _ => return none

/-- Add the first file among some paths. -/
def fetchFirst (host : Host) : List Path → IO (Option Host)
  | [] => return none
  | p :: rest => do
    match ← fetch host p with
    | some host => return some host
    | none => fetchFirst host rest

/-- Run, and run again with each file that was missed. -/
partial def runFetching {α : Type} (host : Host) (action : Host → Run α) (s : Store) :
    IO (Host × EStateM.Result Failure Store α) := do
  match action host s with
  | .error (.error (.sourceNotFound path)) after =>
    match ← fetchFirst host ((host.candidates (.ofText path)).toOption.getD []) with
    | some host => runFetching host action s
    | none => return (host, .error (.error (.sourceNotFound path)) after)
  | r => return (host, r)

/-- Write what has been printed and logged, and forget it. -/
def flush (s : Store) : IO Store := do
  let out ← IO.getStdout
  out.putStr s.output.text.asString
  out.flush
  let err ← IO.getStderr
  err.putStr s.journal.errorStream.text.asString
  return { s with output := .empty, journal := { s.journal with errorStream := .empty } }

/-- End with a failure that nothing reports. -/
def abort (failure : Failure) : IO UInt32 := do
  let reason := match failure with
    | .tooManyDigits => "a number has too many digits"
    | .undecodable => "a source file is not UTF-8 text"
    | .unencodable => "a text to be printed holds a surrogate"
    | .impossiblePath => "a path holds a null character"
    | .inaccessible fault => fault.message.asString
    | .noFileName => "no file is named"
    | .noPreludeRoot => "the prelude path is empty"
    | .limitTooLarge => "the recursion limit is too large"
    | .levelIsText | .levelIsTable => "this is not a log level"
    | .outOfDepth => "too deep"
    | .error e => e.message.asString
  (← IO.getStderr).putStrLn ("fatal: " ++ reason)
  return 1

/-- Answer the lines that are typed. -/
partial def interact (host : Host) (s : Store) : IO UInt32 := do
  let s ← flush { s with output := s.output.write prompt }
  let line ← (← IO.getStdin).getLine
  if line.isEmpty then
    IO.println ""
    return 0
  let text : Text := if line.endsWith "\n" then (line.dropEnd 1).copy else line
  -- A missing file is looked for before the answer is given.
  let (host, _) ← runFetching host (fun host => Session.evalText host text) s
  match replLine host text s with
  | .ok _ s => interact host s
  | .error failure s =>
    let _ ← flush s
    abort failure

/-- Do what the options ask for. -/
def perform (host : Host) (o : Options) : IO UInt32 := do
  let s ← match begin host o with
    | .ok s => pure s
    | .error failure => return ← abort failure
  let (host, started) ← runFetching host (fun host => Session.start host o.prelude) s
  match started with
  | .error failure s =>
    let _ ← flush s
    abort failure
  | .ok _ s =>
    let finish (host : Host) (action : Host → Run Value) (report : Host → Run Bool) :
        IO UInt32 := do
      let (host, _) ← runFetching host action s
      match report host s with
      | .ok good s =>
        let _ ← flush s
        return if good then 0 else 1
      | .error failure s =>
        let _ ← flush s
        abort failure
    match o.mode with
    | some (.code source print) =>
      finish host (fun host => Session.evalText host source)
        (fun host => runProgram host source print)
    | some (.file none _) => abort .noFileName
    | some (.file (some path) print) =>
      let host := (← fetch host (.ofText path)).getD host
      finish host (fun host => Session.evalFile host path)
        (fun host => runFile host print (some path))
    | some .repl | none =>
      let announce : Run Unit := Run.log "silence.repl" .info "Starting REPL"
      match announce s with
      | .ok _ s => interact host s
      | .error failure _ => abort failure

/-- The levels of nesting that this system has room for. -/
def levels : Nat := 5000

/-- What a run can see of this system: the settings, and the prelude that is set. -/
def system : IO Host := do
  let here := Path.ofText (← IO.currentDir).toString
  let home := (Path.ofText (← IO.appPath).toString).parent ++ Path.ofText "prelude"
  let environment ← settings.filterMapM fun name => do
    return (← IO.getEnv name).map fun v => ((name : Text), (v : Text))
  let tree : FileTree := FileTree.makeDirectory [] here.parts
  let tree := tree.putFile (home.parts ++ [Prelude.fileName]) (Utf8.encode Prelude.source)
  let host : Host := ⟨tree, here, home, environment, levels⟩
  let roots := ((host.pathList? "SILENCE_PRELUDE_PATH").getD []).take 1
  let preludes := roots ++ roots.map Path.parent |>.map (· ++ Path.ofText Prelude.fileName)
  return (← fetchFirst host preludes).getD host

/-- A reminder of the options. -/
def usage : String :=
  "usage: silence [-h] [-r | -e CODE | -ep CODE | -f FILE | -fp FILE] [--prelude] " ++
    "[--log-level LOG_LEVEL]"

end RationalLisp.Main

/-- The command. -/
def main (words : List String) : IO UInt32 := do
  match RationalLisp.CommandLine.Options.ofWords (words.map RationalLisp.Text.ofString) with
  | .error .help =>
    IO.println RationalLisp.Main.usage
    return 0
  | .error .invalid =>
    IO.eprintln RationalLisp.Main.usage
    return 2
  | .ok o => RationalLisp.Main.perform (← RationalLisp.Main.system) o
