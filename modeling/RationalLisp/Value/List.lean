import RationalLisp.Value

/-! # Lists and strings as values

A list is a chain of cells that ends in the empty list. A string is a list of numbers, one for
each code point of its text. -/

namespace RationalLisp.Value

/-- The chain of cells with the given heads in front of a last tail. -/
def chain : List Value → Value → Value
  | [], last => last
  | x :: xs, last => .cell x (chain xs last)

/-- The proper list of the given elements. -/
def ofList (xs : List Value) : Value := chain xs .null

/-- The heads of a chain of cells, latest first, and the value that ends it. -/
def unchainOnto (seen : List Value) : Value → List Value × Value
  | .cell head tail => unchainOnto (head :: seen) tail
  | last => (seen, last)

/-- The heads of a chain of cells and the value that ends it. -/
def unchain (v : Value) : List Value × Value :=
  let (seen, last) := unchainOnto [] v
  (seen.reverse, last)

/-- The elements of a proper list. -/
def toList? (v : Value) : Option (List Value) :=
  match unchain v with
  | (xs, .null) => some xs
  | _ => none

/-- Whether a chain of cells ends in the empty list. -/
def isList : Value → Bool
  | .cell _ tail => isList tail
  | .null => true
  | _ => false

/-- The number of a code point. -/
def ofCodePoint (c : CodePoint) : Value := .num (c.val : Rat)

/-- The code point whose number a value is. -/
def toCodePoint? : Value → Option CodePoint
  | .num q =>
    if q.den = 1 ∧ 0 ≤ q.num then
      if h : q.num.toNat < 0x110000 then some ⟨q.num.toNat, h⟩ else none
    else none
  | _ => none

/-- The string of a text. -/
def ofText (t : Text) : Value := ofList (t.map ofCodePoint)

/-- The text of a string. -/
def toText? (v : Value) : Option Text :=
  v.toList?.bind fun xs => xs.mapM toCodePoint?

/-- The call of `quote` on an expression. -/
def quoted (v : Value) : Value := ofList [.atom "quote", v]

end RationalLisp.Value
