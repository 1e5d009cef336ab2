import RationalLisp.Text.Utf8

/-! # Paths

A path is a root and the names that lead on from it. In normal form, empty names and single points
are dropped, since they say nothing; double points are kept, since only the file tree can tell
where they lead. -/

namespace RationalLisp

/-- Where a path starts. Two leading slashes are a root of their own. -/
inductive Root where
  | relative
  | slash
  | doubleSlash
  deriving DecidableEq

/-- A path. -/
structure Path where
  root : Root
  parts : List Text
  deriving DecidableEq

namespace Path

/-- The root of a path, read off the slashes it begins with. -/
def rootOf (t : Text) : Root :=
  match (t.takeWhile (· = ('/' : CodePoint))).length with
  | 0 => .relative
  | 2 => .doubleSlash
  | _ => .slash

/-- The path that a text writes, in normal form. -/
def ofText (t : Text) : Path :=
  ⟨rootOf t, (t.splitOn '/').filter fun part => part ≠ [] ∧ part ≠ Text.ofString "."⟩

/-- The path that a text writes, step by step: single points stay, since each of them asks for a
directory to stand on. -/
def ofSteps (t : Text) : Path := ⟨rootOf t, (t.splitOn '/').filter (· ≠ [])⟩

/-- The text of a root. -/
def rootText : Root → Text
  | .relative => ""
  | .slash => "/"
  | .doubleSlash => "//"

/-- The text of a path. The path that leads nowhere is a point. -/
def toText (p : Path) : Text :=
  match rootText p.root ++ List.intercalate ("/" : Text) p.parts with
  | [] => "."
  | t => t

/-- Whether a path leads to the same place from everywhere. -/
def isAbsolute (p : Path) : Bool := p.root ≠ .relative

/-- A path as seen from another one. -/
def append (base p : Path) : Path :=
  if p.isAbsolute then p else ⟨base.root, base.parts ++ p.parts⟩

instance : Append Path := ⟨append⟩

/-- A path without its last name. -/
def parent (p : Path) : Path := ⟨p.root, p.parts.dropLast⟩

/-- Whether a path holds what no file name can hold: the null code point, or a surrogate that does
not stand for a byte. -/
def isImpossible (p : Path) : Bool :=
  p.parts.any (·.any fun c => c = '\x00' || c.isSurrogate && !Utf8.isByte c)

end Path

end RationalLisp
