import RationalLisp.Failure
import RationalLisp.Numeric.Binary64
import RationalLisp.Numeric.FixedPoint
import RationalLisp.Primitive

/-! # Elementary functions in binary64

The argument is rounded to binary64, and so is the value of the function there. Both are handed
on as exact rationals.

## Implementation notes

The results are rounded correctly. The mathematical library of a platform promises less, and its
results may differ from these in the last bit. -/

namespace RationalLisp

namespace Elementary

open FixedPoint

/-- The exponential, to far more than binary64 precision. Outside -800 to 800 the value is rounded
to zero or out of range, so any value beyond the bounds will do. -/
def expReal (x : Rat) : Rat :=
  if x < -800 then 0
  else if 800 < x then (Nat.pow 2 Binary64.overflowExponent : Rat)
  else
    let v := ofRat x
    let power := v / logTwo
    let mantissa := toRat (FixedPoint.exp (v - power * logTwo))
    match power with
    | .ofNat n => mantissa * (Nat.pow 2 n : Rat)
    | .negSucc n => mantissa / (Nat.pow 2 (n + 1) : Rat)

/-- Sine and cosine, as fixed-point values. -/
def sinCos (x : Rat) : Int × Int :=
  let v := ofRat x
  let quadrant := v / halfPi
  let rest := v - quadrant * halfPi
  (quadrantSin quadrant rest, quadrantSin (quadrant + 1) rest)

/-- The arc tangent. -/
def atanReal (x : Rat) : Rat :=
  let magnitude := if x < 0 then -x else x
  let v := if magnitude ≤ 1 then arctan (ofRat magnitude) else halfPi - arctan (ofRat (1 / magnitude))
  toRat (if x < 0 then -v else v)

/-- The arc sine of a number between -1 and 1, as a fixed-point value. -/
def asinFixed (x : Rat) : Int :=
  let magnitude := ofRat (if x < 0 then -x else x)
  let v := 2 * arctan (div magnitude (one + sqrt (one - mul magnitude magnitude)))
  if x < 0 then -v else v

/-- The natural logarithm of a positive number. -/
def logReal (x : Rat) : Rat :=
  let power := Binary64.exponent x.num.natAbs x.den
  let mantissa := match power with
    | .ofNat n => x / (Nat.pow 2 n : Rat)
    | .negSucc n => x * (Nat.pow 2 (n + 1) : Rat)
  let v := ofRat mantissa
  toRat (power * logTwo + 2 * artanh (div (v - one) (v + one)))

/-- The value of a function at a binary64 number, before rounding; none outside its domain. -/
def real? (f : Elementary) (x : Rat) : Option Rat :=
  match f with
  | exp => some (expReal x)
  | sin => some (toRat (sinCos x).1)
  | cos => some (toRat (sinCos x).2)
  | tan => let (s, c) := sinCos x; some ((s : Rat) / (c : Rat))
  | asin => if -1 ≤ x ∧ x ≤ 1 then some (toRat (asinFixed x)) else none
  | acos => if -1 ≤ x ∧ x ≤ 1 then some (toRat (halfPi - asinFixed x)) else none
  | atan => some (atanReal x)

/-- The value of a function in binary64. -/
def apply (f : Elementary) (q : Rat) : Except ArithmeticFault Rat :=
  match Binary64.round? q with
  | none => .error (.tooLarge f.name)
  | some x =>
    match f.real? x with
    | none => .error (.outsideDomain f.name)
    | some y =>
      match Binary64.round? y with
      | none => .error (.outsideRange f.name)
      | some z => .ok z

end Elementary

namespace Logarithm

/-- The binary64 number nearest to an operand of the logarithm. -/
def operand (q : Rat) : Except ArithmeticFault Rat :=
  match Binary64.round? q with
  | none => .error (.tooLarge "log")
  | some x => .ok x

/-- The natural logarithm of a binary64 number, in binary64. -/
def natural (x : Rat) : Except ArithmeticFault Rat :=
  if x ≤ 0 then .error (.outsideDomain "log")
  else match Binary64.round? (Elementary.logReal x) with
    | none => .error (.outsideRange "log")
    | some y => .ok y

/-- The logarithm of `q` to a base: the quotient of the natural logarithms in binary64. -/
def apply (base q : Rat) : Except ArithmeticFault Rat := do
  let x ← operand q
  let b ← operand base
  let num ← natural x
  let den ← natural b
  if den = 0 then throw .logarithmBaseOne
  match Binary64.round? (num / den) with
  | none => throw (.outsideRange "log")
  | some y => pure y

end Logarithm

end RationalLisp
