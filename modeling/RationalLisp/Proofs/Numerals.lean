import RationalLisp.Reader
import RationalLisp.Value.Printer
import Mathlib.Data.Rat.Lemmas
import Mathlib.Tactic.Ring

/-!
# Numbers are printed as numerals

The printed form of a number is a numeral of that number: a run of digits with a sign, or a ratio of
two runs. If the number is short enough to be printed, the numeral is short enough to be read.
-/

namespace RationalLisp

/-! ### Digits -/

namespace Decimal

@[simp] theorem value_nil : value [] = 0 := rfl

theorem value_digitsOnto (n : Nat) (rest : List Digit) :
    value (digitsOnto n rest) = valueFrom n rest := by
  fun_induction digitsOnto n rest with
  | case1 n rest digit hn =>
    have hmod : n % 10 = n := Nat.mod_eq_of_lt hn
    simp [value, valueFrom, digit, hmod]
  | case2 n rest digit hn ih =>
    rw [ih]
    have hdigits : 10 * (n / 10) + n % 10 = n := Nat.div_add_mod n 10
    simp [valueFrom, digit, hdigits]

/-- The digits of a number denote it. -/
@[simp] theorem value_digits (n : Nat) : value (digits n) = n := value_digitsOnto n []

theorem length_digitsOnto_le (n : Nat) (rest : List Digit) :
    ∀ k, 0 < k → n < 10 ^ k → (digitsOnto n rest).length ≤ k + rest.length := by
  fun_induction digitsOnto n rest with
  | case1 n rest digit hn =>
    intro k hk h
    rw [List.length_cons]
    omega
  | case2 n rest digit hn ih =>
    intro k hk h
    obtain ⟨k, rfl⟩ : ∃ k', k = k' + 1 := ⟨k - 1, by omega⟩
    have hdiv : n / 10 < 10 ^ k := by
      rw [pow_succ] at h
      omega
    have hpos : 0 < k := by
      rcases Nat.eq_zero_or_pos k with rfl | hpos
      · exact absurd h (by omega)
      · exact hpos
    have hlength := ih k hpos hdiv
    rw [List.length_cons] at hlength
    omega

/-- A number that can be written has few enough digits to be read. -/
theorem length_digits_le {z : Int} (h : Writable z) : (digits z.natAbs).length ≤ maxDigits := by
  have hpos : 0 < maxDigits := by decide
  unfold Writable at h
  -- the bound stays a variable, for the power is not to be computed
  generalize maxDigits = k at h hpos ⊢
  exact length_digitsOnto_le z.natAbs [] k hpos h

theorem digitsOnto_ne_nil (n : Nat) (rest : List Digit) : digitsOnto n rest ≠ [] := by
  fun_induction digitsOnto n rest with
  | case1 => exact List.cons_ne_nil _ _
  | case2 n rest digit hn ih => exact ih

@[simp] theorem digits_ne_nil (n : Nat) : digits n ≠ [] := digitsOnto_ne_nil n []

@[simp] theorem ofNat_ne_nil (n : Nat) : ofNat n ≠ [] := by simp [ofNat]

end Decimal

namespace CodePoint

/-- A digit is the digit that its printed form stands for. -/
@[simp] theorem digit?_ofDigit : ∀ d : Digit, digit? (ofDigit d) = some d := by decide

theorem ofDigit_ne_sign : ∀ d : Digit, ofDigit d ≠ ofChar '-' ∧ ofDigit d ≠ ofChar '+' := by decide

end CodePoint

/-! ### Numerals -/

namespace Numeral

/-- No digit stands at the front of the text. -/
def NoDigit (t : Text) : Prop := ∀ c rest, t = c :: rest → c.digit? = none

theorem noDigit_nil : NoDigit [] := fun _ _ h => nomatch h

theorem noDigit_slash (t : Text) : NoDigit (CodePoint.ofChar '/' :: t) := by
  rintro c rest heq
  rw [← (List.cons.inj heq).1]
  decide

theorem splitDigits_append (ds : List Digit) {rest : Text} (hrest : NoDigit rest) :
    splitDigits (ds.map CodePoint.ofDigit ++ rest) = (ds, rest) := by
  induction ds with
  | nil =>
    cases rest with
    | nil => rfl
    | cons c rest => simp [splitDigits, hrest c rest rfl]
  | cons d ds ih => simp [splitDigits, ih]

theorem digits?_ofNat (n : Nat) : digits? (Decimal.ofNat n) = some (Decimal.digits n) := by
  have hsplit := splitDigits_append (Decimal.digits n) noDigit_nil
  rw [List.append_nil] at hsplit
  rw [digits?, Decimal.ofNat, hsplit]
  cases hdigits : Decimal.digits n with
  | nil => exact absurd hdigits (Decimal.digits_ne_nil n)
  | cons d ds => rfl

theorem splitSign_ofNat (n : Nat) (rest : Text) :
    splitSign (Decimal.ofNat n ++ rest) = (false, Decimal.ofNat n ++ rest) := by
  cases hdigits : Decimal.digits n with
  | nil => exact absurd hdigits (Decimal.digits_ne_nil n)
  | cons d ds =>
    have hsign := CodePoint.ofDigit_ne_sign d
    simp [Decimal.ofNat, hdigits, splitSign, hsign.1, hsign.2]

/-- The sign of a printed integer can be split off. -/
theorem splitSign_ofInt (z : Int) (rest : Text) :
    splitSign (Decimal.ofInt z ++ rest) =
      (decide (z < 0), Decimal.ofNat z.natAbs ++ rest) := by
  cases z with
  | ofNat n => exact splitSign_ofNat n rest
  | negSucc n =>
    have hneg : Int.negSucc n < 0 := Int.negSucc_lt_zero n
    simp [Decimal.ofInt, splitSign, hneg]

theorem signed_natAbs (z : Int) : signed (decide (z < 0)) (z.natAbs : Rat) = z := by
  have hcast : (z.natAbs : Rat) = ((z.natAbs : Int) : Rat) := (Int.cast_natCast z.natAbs).symm
  by_cases hz : z < 0
  · have habs : (z.natAbs : Int) = -z := by omega
    rw [hcast, habs]
    simp [signed, hz]
  · have habs : (z.natAbs : Int) = z := by omega
    rw [hcast, habs]
    simp [signed, hz]

theorem signed_div (negative : Bool) (p q : Rat) :
    signed negative (p / q) = signed negative p / q := by
  unfold signed
  split
  · rw [neg_div]
  · rfl

/-- The numeral that a number is printed as. -/
def ofNumber (q : Rat) : Numeral :=
  if q.den = 1 then .decimal (q.num < 0) (Decimal.digits q.num.natAbs) [] none
  else .ratio (q.num < 0) (Decimal.digits q.num.natAbs) (Decimal.digits q.den)

/-- What the digits of a printed integer are followed by decides what the numeral is. -/
theorem ofText?_ofInt (z : Int) {rest : Text} (hrest : NoDigit rest) :
    ofText? (Decimal.ofInt z ++ rest) =
      match rest with
      | [] => some (.decimal (z < 0) (Decimal.digits z.natAbs) [] none)
      | c :: after =>
        if c = CodePoint.ofChar '/' then
          (digits? after).map (.ratio (z < 0) (Decimal.digits z.natAbs))
        else if c = CodePoint.ofChar '.' then
          let (fraction, power) := splitDigits after
          if fraction = [] then none
          else (exponent? power).map (.decimal (z < 0) (Decimal.digits z.natAbs) fraction)
        else (exponent? rest).map (.decimal (z < 0) (Decimal.digits z.natAbs) []) := by
  have hsplit := splitDigits_append (Decimal.digits z.natAbs) hrest
  unfold ofText?
  rw [splitSign_ofInt, Decimal.ofNat]
  simp only [hsplit]
  cases rest <;> simp

theorem ofText?_numberText (q : Rat) : ofText? (Value.numberText q) = some (ofNumber q) := by
  by_cases hden : q.den = 1
  · have hinteger := ofText?_ofInt q.num noDigit_nil
    rw [List.append_nil] at hinteger
    rw [Value.numberText, if_pos hden, hinteger, ofNumber, if_pos hden]
  · have hratio := ofText?_ofInt q.num (noDigit_slash (Decimal.ofNat q.den))
    rw [Value.numberText, if_neg hden, hratio, ofNumber, if_neg hden]
    simp [digits?_ofNat]

theorem value_ofNumber (q : Rat) : (ofNumber q).value = q := by
  by_cases hden : q.den = 1
  · calc (ofNumber q).value = signed (q.num < 0) (q.num.natAbs : Rat) := by
          simp [ofNumber, hden, value, scale]
      _ = q.num := signed_natAbs q.num
      _ = q := Rat.coe_int_num_of_den_eq_one hden
  · calc (ofNumber q).value = signed (q.num < 0) ((q.num.natAbs : Rat) / (q.den : Rat)) := by
          simp [ofNumber, hden, value]
      _ = (q.num : Rat) / q.den := by rw [signed_div, signed_natAbs]
      _ = q := Rat.num_div_den q

theorem legible_ofNumber {q : Rat} (hnum : Decimal.Writable q.num) (hden : Decimal.Writable q.den) :
    (ofNumber q).Legible := by
  have hn := Decimal.length_digits_le hnum
  have hd := Decimal.length_digits_le hden
  rw [Int.natAbs_natCast] at hd
  unfold ofNumber
  split
  · simp [Legible, runs, hn]
  · simp [Legible, runs, hn, hd]

theorem overZero_ofNumber (q : Rat) : (ofNumber q).overZero = false := by
  unfold ofNumber
  split
  · rfl
  · simp [overZero, q.den_nz]

end Numeral

/-- A number that can be printed is read back. -/
theorem Reader.ofSymbol_numberText {q : Rat} (hnum : Decimal.Writable q.num)
    (hden : Decimal.Writable q.den) : ofSymbol (Value.numberText q) = .ok (.num q) := by
  have hnumeral := Numeral.ofText?_numberText q
  have htrue : Value.numberText q ≠ Text.ofString "#t" := by
    intro heq
    rw [heq] at hnumeral
    exact absurd hnumeral (by simp [show Numeral.ofText? (Text.ofString "#t") = none by decide])
  have hfalse : Value.numberText q ≠ Text.ofString "#f" := by
    intro heq
    rw [heq] at hnumeral
    exact absurd hnumeral (by simp [show Numeral.ofText? (Text.ofString "#f") = none by decide])
  rw [ofSymbol, if_neg htrue, if_neg hfalse, hnumeral]
  simp [Numeral.legible_ofNumber hnum hden, Numeral.overZero_ofNumber, Numeral.value_ofNumber]

end RationalLisp
