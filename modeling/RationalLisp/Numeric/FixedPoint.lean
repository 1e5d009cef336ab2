/-! # Fixed-point series

Elementary functions to about 1380 bits after the binary point: an integer `v` stands for
`v / 2 ^ bits`. The precision leaves over 300 correct bits in every result that matters here, down
to the least binary64 number and after reducing the largest one by multiples of π. -/

namespace RationalLisp.FixedPoint

/-- The number of bits after the binary point. -/
def bits : Nat := 1400

/-- The number one. -/
def one : Int := (Nat.pow 2 bits : Nat)

/-- The fixed-point value of a rational, rounded down. -/
def ofRat (q : Rat) : Int := q.num * one / q.den

/-- The rational that a fixed-point value stands for. -/
def toRat (v : Int) : Rat := mkRat v (Nat.pow 2 bits)

/-- The product of two values. -/
def mul (a b : Int) : Int := (a * b) >>> bits

/-- The quotient of two values. -/
def div (a b : Int) : Int := a * one / b

/-- The sum of the first `count` terms of a series. The term of index `k + 1` is `next k` of the
term of index `k`. -/
def sum (next : Nat → Int → Int) : (count k : Nat) → (term total : Int) → Int
  | 0, _, _, total => total
  | count + 1, k, term, total => sum next count (k + 1) (next k term) (total + term)

/-- The exponential of a value between zero and one. -/
def exp (x : Int) : Int :=
  sum (fun k t => mul t x / (k + 1)) 300 0 one 0

/-- The sine of a value between zero and two. -/
def sin (x : Int) : Int :=
  let square := mul x x
  sum (fun k t => -mul t square / ((2 * k + 2) * (2 * k + 3))) 200 0 x 0

/-- The cosine of a value between zero and two. -/
def cos (x : Int) : Int :=
  let square := mul x x
  sum (fun k t => -mul t square / ((2 * k + 1) * (2 * k + 2))) 200 0 one 0

/-- The arc tangent of a value between zero and one, by powers of `x² / (1 + x²)`. -/
def arctan (x : Int) : Int :=
  let square := mul x x
  let ratio := div square (one + square)
  sum (fun k t => mul t ratio * (2 * k + 2) / (2 * k + 3)) 1500 0 (div x (one + square)) 0

/-- The inverse hyperbolic tangent of a value between zero and one third. -/
def artanh (x : Int) : Int :=
  let square := mul x x
  sum (fun k t => mul t square * (2 * k + 1) / (2 * k + 3)) 460 0 x 0

/-- Half of π. -/
def halfPi : Int := 2 * arctan one

/-- The natural logarithm of two. -/
def logTwo : Int := 2 * artanh (one / 3)

/-- The integer part of a square root. -/
def sqrtNat (n : Nat) : Nat :=
  if n = 0 then 0
  else
    let half := 2 * sqrtNat (n / 4)
    if (half + 1) * (half + 1) ≤ n then half + 1 else half
termination_by n
decreasing_by omega

/-- The square root of a value. -/
def sqrt (x : Int) : Int := (sqrtNat (x * one).toNat : Int)

/-- The sine after reduction by multiples of half of π. -/
def quadrantSin (quadrant rest : Int) : Int :=
  match (quadrant % 4).toNat with
  | 0 => sin rest
  | 1 => cos rest
  | 2 => -sin rest
  | _ => -cos rest

end RationalLisp.FixedPoint
