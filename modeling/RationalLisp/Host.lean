import RationalLisp.Files.Tree
import RationalLisp.Text.Blank
import RationalLisp.Text.Digit
import RationalLisp.Text.Decimal
import RationalLisp.Text.Quoted
import RationalLisp.Text.Upper

/-! # The surroundings of a run

The files, the working directory and the environment variables that a run can see, and the
settings that it takes from them. -/

namespace RationalLisp

/-- What a run can see of the system it runs on. -/
structure Host where
  tree : FileTree
  workingDirectory : Path
  packagedPrelude : Path
  environment : List (Text × Text)
  /-- How deep evaluation, source text and the values that are shown may be nested. The nesting
  limit that is set counts the calls of the machine underneath; how many of them a level takes is
  its own affair. -/
  depth : Nat

namespace Host

/-- A host without files and settings. -/
def bare : Host := ⟨[], ⟨.slash, []⟩, ⟨.slash, []⟩, [], 5000⟩

/-! ### Files -/

/-- The location at which the names of a path begin. -/
def start (host : Host) (p : Path) : Location :=
  if p.isAbsolute then [] else host.workingDirectory.parts

/-- The number of bytes from which on a path is too long. -/
def pathByteLimit : Nat := 4096

/-- Whether a path has too many bytes. -/
def isLongPath (p : Path) : Bool := pathByteLimit ≤ (Utf8.encodeName p.toText).length

/-- The entry that a path leads to. -/
def entry (host : Host) (p : Path) : Except AccessFault Entry :=
  if isLongPath p then .error .nameTooLong
  else match host.tree.walk (host.start p) p.parts with
    | .error fault => .error fault
    | .ok place =>
      match host.tree.find? place with
      | some entry => .ok entry
      | none => .error .missing

/-- Whether a path leads to an entry of some kind. A path that leads nowhere does not, but a path
that is too long or that may not be followed has no answer. -/
def leadsTo (kind : Entry → Bool) (host : Host) (p : Path) : Except Failure Bool :=
  if p.isImpossible then .ok false
  else match host.entry p with
    | .ok entry => .ok (kind entry)
    | .error .nameTooLong => .error (.inaccessible .nameTooLong)
    | .error .denied => .error (.inaccessible .denied)
    | .error _ => .ok false

/-- Whether a path leads to a file, be it closed or not. -/
def isFile : Host → Path → Except Failure Bool :=
  leadsTo fun
    | .file _ | .closedFile => true
    | .directory | .closedDirectory => false

/-- Whether a path leads to a directory, be it closed or not. -/
def isDirectory : Host → Path → Except Failure Bool :=
  leadsTo fun
    | .file _ | .closedFile => false
    | .directory | .closedDirectory => true

/-- Whether a path leads anywhere. -/
def isPresent : Host → Path → Except Failure Bool := leadsTo fun _ => true

/-- The text of a source file. -/
def readSource (host : Host) (p : Path) : Except Failure Text :=
  let unreadable (fault : AccessFault) : Failure :=
    .error (.sourceUnreadable p.toText fault p.toText.quoted)
  if p.isImpossible then .error .impossiblePath
  else match host.entry p with
    | .error fault => .error (unreadable fault)
    | .ok .directory => .error (unreadable .directory)
    | .ok .closedDirectory | .ok .closedFile => .error (unreadable .denied)
    | .ok (.file content) =>
      match Utf8.decode? content with
      | some t => .ok t.unixLines
      | none => .error .undecodable

/-! ### Settings -/

/-- The value of an environment variable. -/
def setting? (host : Host) (name : Text) : Option Text := host.environment.lookup name

/-- The paths that a variable lists between colons, without blank ones; `none` if the variable is
not set or empty. -/
def pathList? (host : Host) (name : Text) : Option (List Path) :=
  match host.setting? name with
  | none | some [] => none
  | some t => some (((t.splitOn ':').map Text.trim).filter (· ≠ []) |>.map Path.ofText)

/-- The directories that relative source paths are looked up in, the working directory first. There
are none if the working directory has been removed. -/
def searchRoots (host : Host) : Except Failure (List Path) :=
  if (host.tree.find? host.workingDirectory.parts).isSome then
    .ok (host.workingDirectory :: (host.pathList? "SILENCE_PATH").getD [])
  else .error (.inaccessible .missing)

/-- The first of some paths that leads to a file. -/
def firstFile? (host : Host) : List Path → Except Failure (Option Path)
  | [] => .ok none
  | p :: rest => do
    if ← host.isFile p then return some p else firstFile? host rest

/-- The paths that a source path may stand for. -/
def candidates (host : Host) (p : Path) : Except Failure (List Path) :=
  if p.isAbsolute then .ok [p] else host.searchRoots.map fun roots => roots.map (· ++ p)

/-- The file that a source path stands for: the first one found from a search root. -/
def resolve (host : Host) (path : Text) : Except Failure Path := do
  match ← host.firstFile? (← host.candidates (.ofText path)) with
  | some found => .ok found
  | none => .error (.error (.sourceNotFound path))

/-- The directory that holds the prelude. A setting that names something else stands for the
directory that holds it. -/
def preludeRoot (host : Host) : Except Failure Path :=
  match (host.pathList? "SILENCE_PRELUDE_PATH").getD [host.packagedPrelude] with
  | [] => .error .noPreludeRoot
  | p :: _ => do return if ← host.isDirectory p then p else p.parent

/-- The nesting limit when none is set. -/
def defaultRecursionLimit : Nat := 10000

/-- The least nesting limit. -/
def leastRecursionLimit : Nat := 1000

/-- Blanks that may surround an integer: the information separators are not among them. -/
def isMargin (c : CodePoint) : Bool := c.isBlank && !(0x1C ≤ c.val && c.val ≤ 0x1F)

/-- A run of digits, with single low lines allowed between digits. -/
def groupedDigits? : Text → Option (List Digit)
  | [] => none
  | [c] => c.digit?.map ([·])
  | c :: d :: rest =>
    match c.digit? with
    | none => none
    | some x =>
      if d = '_' then (groupedDigits? rest).map (x :: ·)
      else (groupedDigits? (d :: rest)).map (x :: ·)

/-- The integer that a text writes: digits of any script with an optional sign. -/
def integer? (t : Text) : Option Int :=
  let body := ((t.dropWhile isMargin).reverse.dropWhile isMargin).reverse
  let (negative, body) := match body with
    | [] => (false, [])
    | c :: rest =>
      if c = '-' then (true, rest) else if c = '+' then (false, rest) else (false, c :: rest)
  match groupedDigits? body with
  | none => none
  | some ds =>
    if ds.length ≤ Decimal.maxDigits then
      some (if negative then -(Decimal.value ds : Int) else (Decimal.value ds : Int))
    else none

/-- The largest nesting limit that a run can be started with. -/
def greatestRecursionLimit : Nat := 2147483647

/-- The nesting limit that is set. -/
def recursionLimit (host : Host) : Nat :=
  match (host.setting? "SILENCE_RECURSION_LIMIT").bind integer? with
  | none => defaultRecursionLimit
  | some n => max n.toNat leastRecursionLimit

/-- The name of the log level that is set, in upper case. -/
def logLevel (host : Host) : Text :=
  ((host.setting? "SILENCE_LOG_LEVEL").getD ("WARNING" : Text)).upper

end Host

end RationalLisp
