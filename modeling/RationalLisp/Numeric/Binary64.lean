/-! # Rounding to binary64

The nearest number of the form `m * 2 ^ e` with at most 53 bits in `m` and an exponent of at
least -1074, with ties to the even `m`. Numbers that round to `2 ^ 1024` or beyond have none. -/

namespace RationalLisp.Binary64

/-- The bits of a significand after the first. -/
def fractionBits : Int := 52

/-- The exponent of the least positive number. -/
def leastExponent : Int := -1074

/-- The exponent of the least power of two that is out of range. -/
def overflowExponent : Nat := 1024

/-- The integer nearest to a quotient; of two, the even one. -/
def roundQuotient (num den : Nat) : Nat :=
  let q := num / den
  let r := num % den
  if 2 * r < den then q
  else if den < 2 * r then q + 1
  else if q % 2 = 0 then q else q + 1

/-- Whether `num / den` is at least `2 ^ e`. -/
def atLeastPower (num den : Nat) : Int → Bool
  | .ofNat e => den * Nat.pow 2 e ≤ num
  | .negSucc e => den ≤ num * Nat.pow 2 (e + 1)

/-- The largest `e` such that the positive quotient `num / den` is at least `2 ^ e`. -/
def exponent (num den : Nat) : Int :=
  let estimate : Int := (num.log2 : Int) - (den.log2 : Int)
  if atLeastPower num den estimate then estimate else estimate - 1

/-- The nearest multiple of `2 ^ unit` to the quotient `num / den`. -/
def roundTo (num den : Nat) : Int → Rat
  | .ofNat unit => (roundQuotient num (den * Nat.pow 2 unit) * Nat.pow 2 unit : Nat)
  | .negSucc unit =>
    mkRat (roundQuotient (num * Nat.pow 2 (unit + 1)) den) (Nat.pow 2 (unit + 1))

/-- The nearest binary64 number, if it is in range. -/
def round? (q : Rat) : Option Rat :=
  let num := q.num.natAbs
  if num = 0 then some 0
  else
    let unit := max (exponent num q.den - fractionBits) leastExponent
    let magnitude := roundTo num q.den unit
    if magnitude < (Nat.pow 2 overflowExponent : Rat) then
      some (if q.num < 0 then -magnitude else magnitude)
    else none

end RationalLisp.Binary64
