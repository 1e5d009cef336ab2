import RationalLisp.Host

/-! # Changing files

Directories are made one by one on the way to the last one, and files are only added to. -/

namespace RationalLisp

namespace Host

/-- Whether a path leads anywhere, where a path that cannot be followed leads nowhere. -/
def leadsAnywhere (host : Host) (p : Path) : Bool :=
  !p.isImpossible && (host.entry p).isOk

/-- Make a directory. What holds it has to be there, and nothing may stand in its place. -/
def addDirectory (host : Host) (p : Path) : Except Failure Host :=
  if p.isImpossible then .error .impossiblePath
  else if isLongPath p then .error (.inaccessible .nameTooLong)
  else match host.tree.addDirectory (host.start p) p.parts with
    | .ok tree => .ok { host with tree := tree }
    | .error fault => .error (.inaccessible fault)

/-- Make a directory, and tell what came of it. -/
def tryAddDirectory (host : Host) (p : Path) : Host × Option Failure :=
  match host.addDirectory p with
  | .ok host => (host, none)
  | .error failure => (host, some failure)

/-- Make a directory after those on the way to it that are not there. The names are given last one
first. On the way, what turns out to be there after all is passed over, and a single point at the
end is there as soon as the rest is. What has been made stays, whatever fails after it. -/
def addDirectories (root : Root) (host : Host) : (names : List Text) → Host × Option Failure
  | [] => host.tryAddDirectory ⟨root, []⟩
  | name :: above =>
    let p : Path := ⟨root, (name :: above).reverse⟩
    if above = [] ∨ host.leadsAnywhere p.parent then host.tryAddDirectory p
    else match addDirectories root host above with
      | (host, none) | (host, some (.inaccessible .present)) =>
        if name = Text.ofString "." then (host, none) else host.tryAddDirectory p
      | (host, some failure) => (host, some failure)

/-- Make the directory that holds a file, if it is not there. -/
def makeRoom (host : Host) (file : Text) : Except Failure Host :=
  let directory := (file.reverse.dropWhile (· ≠ ('/' : CodePoint))).reverse
  let p := Path.ofSteps directory
  if directory = [] ∨ host.leadsAnywhere p then .ok host
  else match addDirectories p.root host p.parts.reverse with
    | (host, none) => .ok host
    | (_, some failure) => .error failure

/-- The location of a path seen from the working directory, with double points undone by name. -/
def location (host : Host) (p : Path) : Location :=
  (host.workingDirectory ++ p).parts.foldl
    (fun place name => if name = Text.ofString ".." then place.dropLast else place ++ [name]) []

/-- Open a file to add to it, and tell where it is. -/
def openFile (host : Host) (file : Text) : Except Failure (Host × Location) :=
  let place := host.location (.ofText file)
  let p : Path := ⟨.slash, place⟩
  if p.isImpossible then .error .impossiblePath
  else if isLongPath p then .error (.inaccessible .nameTooLong)
  else match host.tree.addFile place with
    | .ok tree => .ok ({ host with tree := tree }, place)
    | .error fault => .error (.inaccessible fault)

/-- Add a text to the end of a file. -/
def appendText (host : Host) (place : Location) (t : Text) : Host :=
  { host with tree := host.tree.append place (Utf8.encode t) }

end Host

end RationalLisp
