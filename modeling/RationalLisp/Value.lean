import RationalLisp.Text

/-! # Values

Code and data are the same values: atoms, exact rationals, booleans, the empty list, cells and
procedures. A procedure is known by its identifier alone, which makes equality of values the
structural equality that programs observe. -/

namespace RationalLisp

/-- The identity of a procedure: its place in the table of procedures. -/
abbrev ProcId := Nat

/-- The identity of a scope frame: its place in the table of frames. -/
abbrev FrameId := Nat

/-- Expressions before evaluation and results after it. -/
inductive Value where
  | atom (name : Text)
  | num (value : Rat)
  | bool (value : Bool)
  | null
  | cell (head tail : Value)
  | proc (id : ProcId)
  deriving DecidableEq, Inhabited

namespace Value

/-- Compare two values: leaves by what they hold, cells by their heads and then by their tails.
A verdict is never negative on equal values, so parts that are one object in memory are taken for
equal without being walked through. Values that share most of their parts compare in few steps. -/
def verdict : (a b : Value) → { r : Bool // a = b → r = true }
  | .atom x, b =>
    ⟨match b with
      | .atom y => x = y
      | _ => false, by rintro rfl; simp⟩
  | .num x, b =>
    ⟨match b with
      | .num y => x = y
      | _ => false, by rintro rfl; simp⟩
  | .bool x, b =>
    ⟨match b with
      | .bool y => x = y
      | _ => false, by rintro rfl; simp⟩
  | .null, b =>
    ⟨match b with
      | .null => true
      | _ => false, by rintro rfl; rfl⟩
  | .cell h t, b =>
    ⟨match b with
      | .cell h' t' =>
        withPtrEq h h' (fun _ => (verdict h h').1) (verdict h h').2 &&
          withPtrEq t t' (fun _ => (verdict t t').1) (verdict t t').2
      | _ => false, by
      rintro rfl
      simp [withPtrEq, (verdict h h).2 rfl, (verdict t t).2 rfl]⟩
  | .proc x, b =>
    ⟨match b with
      | .proc y => x = y
      | _ => false, by rintro rfl; simp⟩

/-- The equality that programs observe. -/
def same (a b : Value) : Bool := withPtrEq a b (fun _ => (verdict a b).1) (verdict a b).2

/-- Equality at cells: the heads are equal and the tails are. -/
theorem same_cell (h t h' t' : Value) :
    same (.cell h t) (.cell h' t') = (same h h' && same t t') := rfl

/-- Equality of procedures is that of their identities. -/
theorem same_proc (x y : ProcId) : same (.proc x) (.proc y) = decide (x = y) := rfl

end Value

end RationalLisp
