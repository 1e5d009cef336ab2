import RationalLisp.Text.Digit

/-! # Decimal text of integers

Integers are written in base ten without leading zeros. Text of more than `maxDigits` digits is
neither written nor read. -/

namespace RationalLisp.Decimal

/-- The longest run of digits that is written or read. -/
def maxDigits : Nat := 4300

/-- The base-ten digits of a number in front of `rest`, without leading zeros. -/
def digitsOnto (n : Nat) (rest : List Digit) : List Digit :=
  let digit : Digit := ⟨n % 10, Nat.mod_lt n (by omega)⟩
  if n < 10 then digit :: rest else digitsOnto (n / 10) (digit :: rest)
termination_by n
decreasing_by omega

/-- The base-ten digits of a number, most significant first. -/
def digits (n : Nat) : List Digit := digitsOnto n []

/-- The number that a run of digits denotes, after a number that stands in front of it. -/
def valueFrom (start : Nat) (ds : List Digit) : Nat :=
  ds.foldl (fun acc d => 10 * acc + d.val) start

/-- The number that a run of digits denotes. -/
def value (ds : List Digit) : Nat := valueFrom 0 ds

/-- The decimal text of a natural number. -/
def ofNat (n : Nat) : Text := (digits n).map CodePoint.ofDigit

/-- The decimal text of an integer. -/
def ofInt : Int → Text
  | .ofNat n => ofNat n
  | .negSucc n => '-' :: ofNat (n + 1)

/-- Whether the decimal text of an integer has at most `maxDigits` digits. -/
def Writable (n : Int) : Prop := n.natAbs < Nat.pow 10 maxDigits

instance (n : Int) : Decidable (Writable n) :=
  inferInstanceAs (Decidable (n.natAbs < Nat.pow 10 maxDigits))

end RationalLisp.Decimal
