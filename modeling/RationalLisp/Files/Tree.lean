import RationalLisp.Failure
import RationalLisp.Files.Path
import RationalLisp.Text.Utf8

/-! # File trees

The files that a run can see, as a value. An entry is found by the names that lead to it from the
root, which is always a directory. -/

namespace RationalLisp

/-- The names that lead from the root to an entry. -/
abbrev Location := List Text

/-- What stands at a location. A closed directory may be neither searched nor opened, and a closed
file may not be opened. -/
inductive Entry where
  | directory
  | closedDirectory
  | file (content : Bytes)
  | closedFile
  deriving DecidableEq

/-- The entries below the root. -/
abbrev FileTree := List (Location × Entry)

namespace FileTree

/-- The entry at a location. -/
def find? (tree : FileTree) (place : Location) : Option Entry :=
  if place = [] then some .directory else tree.lookup place

/-- The most bytes that a name can have. -/
def maxNameBytes : Nat := 255

/-- Whether a name has too many bytes. -/
def isLongName (name : Text) : Bool := maxNameBytes < (Utf8.encodeName name).length

/-- Follow names from a location. Each step needs a directory to stand on that may be searched. -/
def walk (tree : FileTree) (place : Location) : List Text → Except AccessFault Location
  | [] => .ok place
  | name :: rest =>
    match tree.find? place with
    | some .directory =>
      if name = Text.ofString "." then walk tree place rest
      else if name = Text.ofString ".." then walk tree place.dropLast rest
      else if isLongName name then .error .nameTooLong
      else match tree.find? (place ++ [name]) with
        | some _ => walk tree (place ++ [name]) rest
        | none => .error .missing
    | some .closedDirectory => .error .denied
    | some (.file _) | some .closedFile => .error .notADirectory
    | none => .error .missing

/-- Follow names from a location to a directory in which another name can be looked up. -/
def walkToDirectory (tree : FileTree) (place : Location) (names : List Text) :
    Except AccessFault Location := do
  let place ← tree.walk place names
  match tree.find? place with
  | some .directory => .ok place
  | some .closedDirectory => .error .denied
  | some (.file _) | some .closedFile => .error .notADirectory
  | none => .error .missing

/-- Put an entry at a location, in place of what stands there. -/
def insert (tree : FileTree) (place : Location) (entry : Entry) : FileTree :=
  if (tree.lookup place).isSome then
    tree.map fun (l, old) => if l = place then (l, entry) else (l, old)
  else tree ++ [(place, entry)]

/-- Make a directory at a location and at every location on the way to it, where nothing stands
yet. -/
def makeDirectory (tree : FileTree) (place : Location) : FileTree :=
  (List.range (place.length + 1)).foldl
    (fun tree n =>
      if (tree.find? (place.take n)).isSome then tree else tree.insert (place.take n) .directory)
    tree

/-- Make a directory where names lead from a location. What holds it has to be there, and nothing
may stand in its place. -/
def addDirectory (tree : FileTree) (start : Location) (names : List Text) :
    Except AccessFault FileTree := do
  let place ← tree.walkToDirectory start names.dropLast
  match names.getLast? with
  | none => .error .present
  | some name =>
    if name = Text.ofString "." ∨ name = Text.ofString ".." then .error .present
    else if isLongName name then .error .nameTooLong
    else match tree.find? (place ++ [name]) with
      | some _ => .error .present
      | none => .ok (tree.insert (place ++ [name]) .directory)

/-- See to it that there is a file at a location: an empty one is made if nothing stands there. -/
def addFile (tree : FileTree) (location : Location) : Except AccessFault FileTree := do
  let place ← tree.walkToDirectory [] location.dropLast
  match location.getLast? with
  | none => .error .directory
  | some name =>
    if isLongName name then .error .nameTooLong
    else match tree.find? (place ++ [name]) with
      | some .directory | some .closedDirectory => .error .directory
      | some (.file _) => .ok tree
      | some .closedFile => .error .denied
      | none => .ok (tree.insert (place ++ [name]) (.file []))

/-- Add to the end of a file. -/
def append (tree : FileTree) (location : Location) (content : Bytes) : FileTree :=
  match tree.find? location with
  | some (.file old) => tree.insert location (.file (old ++ content))
  | _ => tree

/-- Put a file at a location and make the directories on the way to it. -/
def putFile (tree : FileTree) (place : Location) (content : Bytes) : FileTree :=
  (tree.makeDirectory place.dropLast).insert place (.file content)

/-- The files with their locations. -/
def files (tree : FileTree) : List (Location × Bytes) :=
  tree.filterMap fun (l, entry) =>
    match entry with
    | .file content => some (l, content)
    | .directory | .closedDirectory | .closedFile => none

end FileTree

end RationalLisp
