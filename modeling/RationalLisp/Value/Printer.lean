import RationalLisp.Failure
import RationalLisp.Procedure
import RationalLisp.Text.Decimal

/-! # Printed form of values

A list is written between brackets with single blanks, an improper chain with a point before its
last value. Numbers are written exactly, and only when they are short enough. The values in a list
are written one level further in, and there is room for only so many levels. -/

namespace RationalLisp

namespace Arity

/-- The arity in the printed form of a procedure. -/
def text : Arity → Text
  | .exactly n => Decimal.ofNat n
  | .variadic => "*"

end Arity

namespace Procedure

/-- The printed form of a procedure. -/
def text (p : Procedure) : Text :=
  ("#<procedure " : Text) ++ p.name ++ [('/' : CodePoint)] ++ p.arity.text ++ [('>' : CodePoint)]

/-- What is said of an integer that is no arity. -/
def invalidArity (arity : Int) (name : Text) : Text :=
  ("Invalid arity " : Text) ++ Decimal.ofInt arity ++ (" for procedure " : Text) ++ name

end Procedure

namespace Value

/-- The printed form of a rational in lowest terms. -/
def numberText (q : Rat) : Text :=
  if q.den = 1 then Decimal.ofInt q.num
  else Decimal.ofInt q.num ++ ('/' : CodePoint) :: Decimal.ofNat q.den

mutual

/-- The printed form of a value. -/
def text (table : Procedures) : Value → Text
  | .atom name => name
  | .num q => numberText q
  | .bool true => "#t"
  | .bool false => "#f"
  | .null => "()"
  | .cell head tail => ('(' : CodePoint) :: (text table head ++ tailText table tail)
  | .proc id => (table.get id).text

/-- The printed form of what follows the head of a cell, with the closing bracket. -/
def tailText (table : Procedures) : Value → Text
  | .null => ")"
  | .cell head tail => (' ' : CodePoint) :: (text table head ++ tailText table tail)
  | last => (" . " : Text) ++ text table last ++ [(')' : CodePoint)]

end

/-- Write a value that is no cell. A number may be too long. -/
def writeLeaf (table : Procedures) : Value → Except Failure Text
  | .num q =>
    if Decimal.Writable q.num ∧ Decimal.Writable q.den then .ok (numberText q)
    else .error .tooManyDigits
  | leaf => .ok (leaf.text table)

mutual

/-- Write a value, with room for some levels of lists in lists. The first number that is too long,
or the first list that there is no room for, ends it. -/
def write (table : Procedures) (room : Nat) : Value → Except Failure Text
  | .cell head tail =>
    match room with
    | 0 => .error .outOfDepth
    | room + 1 => do
      let first ← write table room head
      let rest ← writeTail table room tail
      return ('(' : CodePoint) :: (first ++ rest)
  | leaf => writeLeaf table leaf

/-- Write what follows the head of a cell, with the closing bracket. -/
def writeTail (table : Procedures) (room : Nat) : Value → Except Failure Text
  | .null => .ok ")"
  | .cell head tail => do
    let first ← write table room head
    let rest ← writeTail table room tail
    return (' ' : CodePoint) :: (first ++ rest)
  | last => do
    let t ← writeLeaf table last
    return (" . " : Text) ++ t ++ [(')' : CodePoint)]

end

end Value

end RationalLisp
