import RationalLisp.Text.Decimal

/-! # Numerals

The written forms of numbers: a ratio of two runs of digits, or a decimal with an optional
fraction and an optional power of ten. A numeral denotes an exact rational. -/

namespace RationalLisp

/-- The power of ten of a decimal. -/
structure Exponent where
  negative : Bool
  digits : List Digit
  deriving DecidableEq

/-- The written form of a number, taken apart. -/
inductive Numeral where
  | ratio (negative : Bool) (num den : List Digit)
  | decimal (negative : Bool) (whole fraction : List Digit) (exponent : Option Exponent)
  deriving DecidableEq

namespace Numeral

/-- An optional sign, read as whether it is a minus, and the text after it. -/
def splitSign : Text → Bool × Text
  | [] => (false, [])
  | c :: rest =>
    if c = '-' then (true, rest)
    else if c = '+' then (false, rest)
    else (false, c :: rest)

/-- The longest run of digits at the front of a text, and the text after it. -/
def splitDigits : Text → List Digit × Text
  | [] => ([], [])
  | c :: rest =>
    match c.digit? with
    | some d => let (ds, after) := splitDigits rest; (d :: ds, after)
    | none => ([], c :: rest)

/-- A text that is a non-empty run of digits. -/
def digits? (t : Text) : Option (List Digit) :=
  match splitDigits t with
  | (d :: ds, []) => some (d :: ds)
  | _ => none

/-- A text that is an optional power of ten. -/
def exponent? : Text → Option (Option Exponent)
  | [] => some none
  | c :: rest =>
    if c = 'e' ∨ c = 'E' then
      let (negative, t) := splitSign rest
      (digits? t).map fun ds => some ⟨negative, ds⟩
    else none

/-- The numeral that a text writes. -/
def ofText? (t : Text) : Option Numeral :=
  let (negative, body) := splitSign t
  let (whole, rest) := splitDigits body
  match rest with
  | [] => if whole = [] then none else some (.decimal negative whole [] none)
  | c :: after =>
    if c = '/' then
      if whole = [] then none else (digits? after).map (.ratio negative whole)
    else if c = '.' then
      let (fraction, power) := splitDigits after
      if fraction = [] then none else (exponent? power).map (.decimal negative whole fraction)
    else if whole = [] then none
    else (exponent? rest).map (.decimal negative whole [])

/-- The runs of digits of a numeral. -/
def runs : Numeral → List (List Digit)
  | ratio _ num den => [num, den]
  | decimal _ whole fraction none => [whole, fraction]
  | decimal _ whole fraction (some e) => [whole, fraction, e.digits]

/-- Whether every run of digits is short enough to be read. -/
def Legible (n : Numeral) : Prop := ∀ run ∈ n.runs, run.length ≤ Decimal.maxDigits

instance (n : Numeral) : Decidable n.Legible :=
  inferInstanceAs (Decidable (∀ run ∈ n.runs, run.length ≤ Decimal.maxDigits))

/-- Whether a numeral is a ratio over zero, which denotes no number. -/
def overZero : Numeral → Bool
  | ratio _ _ den => Decimal.value den = 0
  | decimal .. => false

/-- A rational with the given sign. -/
def signed (negative : Bool) (q : Rat) : Rat := if negative then -q else q

/-- The factor by which a power of ten scales a decimal. -/
def scale : Option Exponent → Rat
  | none => 1
  | some e =>
    let power : Rat := (Nat.pow 10 (Decimal.value e.digits) : Rat)
    if e.negative then 1 / power else power

/-- The number that a numeral denotes. -/
def value : Numeral → Rat
  | ratio negative num den => signed negative ((Decimal.value num : Rat) / (Decimal.value den : Rat))
  | decimal negative whole fraction exponent =>
    signed negative
      (((Decimal.value whole : Rat) +
        (Decimal.value fraction : Rat) / (Nat.pow 10 fraction.length : Rat)) * scale exponent)

end Numeral

end RationalLisp
