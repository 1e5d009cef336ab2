import RationalLisp.Proofs.Numerals
import Mathlib.Data.Nat.Digits.Defs
import Mathlib.Algebra.Order.Field.Rat
import Mathlib.Data.List.Induction

/-!
# The grammar of numerals

A symbol is a numeral if it is a ratio of two runs of digits, digits around a point, or a run of
digits, with a sign in front and a power of ten behind the last two. The grammar says what a numeral
denotes as it goes along, and the reader gives just this number. Whether a symbol is a numeral does
not depend on how long its runs of digits are; whether it can be read does.
-/

namespace RationalLisp

/-! ### The grammar -/

/-- The number with the given digits in base ten, the most significant one first. -/
def Decimal.positional (ds : List Digit) : Nat := Nat.ofDigits 10 (ds.reverse.map Fin.val)

namespace Text

open Decimal

/-- A sign, which may be left out, and the factor that it stands for. -/
inductive IsSign : Text → Int → Prop
  | absent : IsSign [] 1
  | plus : IsSign [('+' : CodePoint)] 1
  | minus : IsSign [('-' : CodePoint)] (-1)

/-- The code points of the text are digits, of whichever script. -/
def SpellsDigits (t : Text) (ds : List Digit) : Prop := t.map CodePoint.digit? = ds.map some

/-- A power of ten, which may be left out. It has at most one run of digits. -/
inductive IsPower : Text → List (List Digit) → Int → Prop
  | absent : IsPower [] [] 0
  | present {mark : CodePoint} {sign t : Text} {σ : Int} {ds : List Digit} :
      mark = ('e' : CodePoint) ∨ mark = ('E' : CodePoint) → IsSign sign σ → SpellsDigits t ds →
      ds ≠ [] → IsPower (mark :: (sign ++ t)) [ds] (σ * positional ds)

/-- The text is a numeral with the given runs of digits, and this is what it denotes: a number, or
nothing if it is a ratio over zero. -/
inductive IsNumeral : Text → List (List Digit) → Option Rat → Prop
  | ratio {sign n d : Text} {σ : Int} {ns ds : List Digit} :
      IsSign sign σ → SpellsDigits n ns → ns ≠ [] → SpellsDigits d ds → ds ≠ [] →
      IsNumeral (sign ++ (n ++ ('/' : CodePoint) :: d)) [ns, ds]
        (if positional ds = 0 then none else some (σ * (positional ns / positional ds)))
  | point {sign w f p : Text} {σ : Int} {ws fs : List Digit} {runs : List (List Digit)} {k : Int} :
      IsSign sign σ → SpellsDigits w ws → SpellsDigits f fs → fs ≠ [] → IsPower p runs k →
      IsNumeral (sign ++ (w ++ ('.' : CodePoint) :: (f ++ p))) (ws :: fs :: runs)
        (some (σ * (positional ws + positional fs / 10 ^ fs.length) * 10 ^ k))
  | whole {sign w p : Text} {σ : Int} {ws : List Digit} {runs : List (List Digit)} {k : Int} :
      IsSign sign σ → SpellsDigits w ws → ws ≠ [] → IsPower p runs k →
      IsNumeral (sign ++ (w ++ p)) (ws :: runs) (some (σ * positional ws * 10 ^ k))

end Text

/-! ### Digits -/

theorem Decimal.positional_concat (ds : List Digit) (d : Digit) :
    positional (ds ++ [d]) = 10 * positional ds + d.val := by
  simp [positional, Nat.ofDigits_cons, Nat.add_comm]

/-- Reading digit by digit gives the number that has these digits. -/
theorem Decimal.value_eq_positional (ds : List Digit) : value ds = positional ds := by
  induction ds using List.reverseRecOn with
  | nil => rfl
  | append_singleton ds d ih =>
    rw [positional_concat, ← ih]
    simp [value, valueFrom]

namespace Text

theorem spellsDigits_nil : SpellsDigits [] [] := rfl

theorem spellsDigits_cons {c : CodePoint} {t : Text} {d : Digit} {ds : List Digit} :
    SpellsDigits (c :: t) (d :: ds) ↔ c.digit? = some d ∧ SpellsDigits t ds := by
  simp [SpellsDigits]

/-- Digits are spelled by a text that starts with one. -/
theorem SpellsDigits.exists_cons {t : Text} {ds : List Digit} (h : SpellsDigits t ds)
    (hds : ds ≠ []) : ∃ c rest d, t = c :: rest ∧ c.digit? = some d := by
  obtain ⟨d, ds, rfl⟩ := List.exists_cons_of_ne_nil hds
  cases t with
  | nil => cases h
  | cons c rest => exact ⟨c, rest, d, rfl, (spellsDigits_cons.mp h).1⟩

end Text

namespace Numeral

open Text Decimal

theorem noDigit_cons {c : CodePoint} (h : c.digit? = none) (t : Text) : NoDigit (c :: t) := by
  rintro _ _ heq
  rw [← (List.cons.inj heq).1]
  exact h

theorem splitDigits_of_spells {t rest : Text} {ds : List Digit} (h : SpellsDigits t ds)
    (hrest : NoDigit rest) : splitDigits (t ++ rest) = (ds, rest) := by
  induction t generalizing ds with
  | nil =>
    obtain rfl : ds = [] := List.map_eq_nil_iff.mp h.symm
    cases rest with
    | nil => rfl
    | cons c rest => simp [splitDigits, hrest c rest rfl]
  | cons c t ih =>
    cases ds with
    | nil => cases h
    | cons d ds =>
      obtain ⟨hc, ht⟩ := spellsDigits_cons.mp h
      simp [splitDigits, hc, ih ht]

/-- The run that is split off is spelled by what has been taken away. -/
theorem exists_of_splitDigits {t rest : Text} {ds : List Digit} (h : splitDigits t = (ds, rest)) :
    ∃ front, t = front ++ rest ∧ SpellsDigits front ds := by
  induction t generalizing ds with
  | nil =>
    cases h
    exact ⟨[], rfl, spellsDigits_nil⟩
  | cons c t ih =>
    cases hc : c.digit? with
    | none =>
      simp only [splitDigits, hc] at h
      cases h
      exact ⟨[], rfl, spellsDigits_nil⟩
    | some d =>
      simp only [splitDigits, hc] at h
      cases h
      obtain ⟨front, ht, hfront⟩ := ih rfl
      exact ⟨c :: front, congrArg (c :: ·) ht, spellsDigits_cons.mpr ⟨hc, hfront⟩⟩

theorem digits?_eq_some_iff {t : Text} {ds : List Digit} :
    digits? t = some ds ↔ SpellsDigits t ds ∧ ds ≠ [] := by
  constructor
  · intro h
    unfold digits? at h
    split at h
    · rename_i d ds' hsplit
      cases h
      obtain ⟨front, rfl, hfront⟩ := exists_of_splitDigits hsplit
      rw [List.append_nil]
      exact ⟨hfront, List.cons_ne_nil _ _⟩
    · cases h
  · rintro ⟨h, hds⟩
    have hsplit := splitDigits_of_spells h noDigit_nil
    rw [List.append_nil] at hsplit
    obtain ⟨d, ds, rfl⟩ := List.exists_cons_of_ne_nil hds
    rw [digits?, hsplit]

/-! ### Signs and powers -/

/-- The factor that a sign stands for. -/
def factor (negative : Bool) : Int := if negative then -1 else 1

theorem signed_eq_mul (negative : Bool) (q : Rat) : signed negative q = factor negative * q := by
  cases negative <;> simp [signed, factor]

/-- What is split off is a sign. -/
theorem exists_of_splitSign {t rest : Text} {negative : Bool}
    (h : splitSign t = (negative, rest)) :
    ∃ sign, t = sign ++ rest ∧ IsSign sign (factor negative) := by
  cases t with
  | nil =>
    cases h
    exact ⟨[], rfl, .absent⟩
  | cons c t =>
    rw [splitSign] at h
    split at h
    · rename_i hc
      cases h
      exact ⟨[c], rfl, hc ▸ .minus⟩
    split at h
    · rename_i hc
      cases h
      exact ⟨[c], rfl, hc ▸ .plus⟩
    · cases h
      exact ⟨[], rfl, .absent⟩

/-- A sign is split off if no other sign follows it. -/
theorem splitSign_of_isSign {sign rest : Text} {σ : Int} (h : IsSign sign σ) {c : CodePoint}
    (hminus : c ≠ CodePoint.ofChar '-') (hplus : c ≠ CodePoint.ofChar '+') :
    ∃ negative, splitSign (sign ++ c :: rest) = (negative, c :: rest) ∧ factor negative = σ := by
  cases h with
  | absent => exact ⟨false, by simp [splitSign, hminus, hplus], rfl⟩
  | plus => exact ⟨false, by simp [splitSign, CodePoint.ofChar_inj], rfl⟩
  | minus => exact ⟨true, by simp [splitSign], rfl⟩

/-- A sign in front of digits is split off. -/
theorem splitSign_of_digits {sign t : Text} {σ : Int} {ds : List Digit} (hsign : IsSign sign σ)
    (ht : SpellsDigits t ds) (hds : ds ≠ []) (rest : Text) :
    ∃ negative, splitSign (sign ++ (t ++ rest)) = (negative, t ++ rest) ∧ factor negative = σ := by
  obtain ⟨c, t, d, rfl, hc⟩ := ht.exists_cons hds
  apply splitSign_of_isSign hsign
  · rintro rfl
    rw [show (CodePoint.ofChar '-').digit? = none by decide] at hc
    cases hc
  · rintro rfl
    rw [show (CodePoint.ofChar '+').digit? = none by decide] at hc
    cases hc

/-- The exponent of a power of ten. -/
def power : Option Exponent → Int
  | none => 0
  | some e => factor e.negative * positional e.digits

/-- The run of digits of a power of ten. -/
def powerRuns (e : Option Exponent) : List (List Digit) := (e.map Exponent.digits).toList

theorem scale_eq_zpow (e : Option Exponent) : scale e = 10 ^ power e := by
  cases e with
  | none => simp [scale, power]
  | some e =>
    obtain ⟨negative, digits⟩ := e
    cases negative <;>
      simp [scale, power, factor, value_eq_positional, Nat.pow_eq, zpow_neg]

/-- The powers of ten that are read are those of the grammar. -/
theorem isPower_iff {t : Text} {runs : List (List Digit)} {k : Int} :
    IsPower t runs k ↔ ∃ e, exponent? t = some e ∧ powerRuns e = runs ∧ power e = k := by
  constructor
  · intro h
    cases h with
    | absent => exact ⟨none, rfl, rfl, rfl⟩
    | @present mark sign t σ ds hmark hsign ht hds =>
      obtain ⟨negative, hsplit, rfl⟩ := splitSign_of_digits hsign ht hds []
      rw [List.append_nil] at hsplit
      refine ⟨some ⟨negative, ds⟩, ?_, rfl, rfl⟩
      rw [exponent?, if_pos hmark, hsplit]
      simp [digits?_eq_some_iff.mpr ⟨ht, hds⟩]
  · rintro ⟨e, he, rfl, rfl⟩
    cases t with
    | nil =>
      cases he
      exact .absent
    | cons mark rest =>
      rw [exponent?] at he
      split at he
      · rename_i hmark
        rcases hsplit : splitSign rest with ⟨negative, t⟩
        obtain ⟨sign, rfl, hsign⟩ := exists_of_splitSign hsplit
        rw [hsplit] at he
        obtain ⟨ds, hds, rfl⟩ := Option.map_eq_some_iff.mp he
        obtain ⟨hspells, hne⟩ := digits?_eq_some_iff.mp hds
        exact .present hmark hsign hspells hne
      · cases he

theorem IsPower.noDigit {t : Text} {runs : List (List Digit)} {k : Int} (h : IsPower t runs k) :
    NoDigit t := by
  cases h with
  | absent => exact noDigit_nil
  | present hmark _ _ _ =>
    apply noDigit_cons
    obtain rfl | rfl := hmark
    · decide
    · decide

/-! ### Numerals -/

/-- The number that a numeral denotes, unless it is a ratio over zero. -/
def denoted (n : Numeral) : Option Rat := if n.overZero then none else some n.value

theorem denoted_ratio (negative : Bool) (num den : List Digit) :
    (ratio negative num den).denoted =
      if positional den = 0 then none
      else some ((factor negative : Rat) * (positional num / positional den)) := by
  simp [denoted, overZero, value, signed_eq_mul, value_eq_positional]

theorem denoted_decimal (negative : Bool) (whole fraction : List Digit) (e : Option Exponent) :
    (decimal negative whole fraction e).denoted =
      some ((factor negative : Rat) *
        (positional whole + positional fraction / 10 ^ fraction.length) * 10 ^ power e) := by
  simp [denoted, overZero, value, signed_eq_mul, value_eq_positional, scale_eq_zpow, Nat.pow_eq,
    mul_assoc]

theorem legible_decimal (negative : Bool) (whole fraction : List Digit) (e : Option Exponent) :
    (decimal negative whole fraction e).Legible ↔
      ∀ run ∈ whole :: fraction :: powerRuns e, run.length ≤ 4300 := by
  cases e <;> rfl

/-- Everything in the grammar is read as a numeral. -/
theorem ofText?_of_isNumeral {t : Text} {runs : List (List Digit)} {q : Option Rat}
    (h : IsNumeral t runs q) :
    ∃ n, ofText? t = some n ∧ n.denoted = q ∧ (n.Legible ↔ ∀ run ∈ runs, run.length ≤ 4300) := by
  cases h with
  | @ratio sign n d σ ns ds hsign hn hns hd hds =>
    obtain ⟨negative, hsplit, rfl⟩ :=
      splitSign_of_digits hsign hn hns (CodePoint.ofChar '/' :: d)
    have hdigits := splitDigits_of_spells hn (noDigit_slash d)
    refine ⟨.ratio negative ns ds, ?_, denoted_ratio .., Iff.rfl⟩
    simp [ofText?, hsplit, hdigits, hns, digits?_eq_some_iff.mpr ⟨hd, hds⟩]
  | @point sign w f p σ ws fs runs k hsign hw hf hfs hp =>
    have hpoint : (CodePoint.ofChar '.').digit? = none := by decide
    have hsplit : ∃ negative, splitSign (sign ++ (w ++ CodePoint.ofChar '.' :: (f ++ p))) =
        (negative, w ++ CodePoint.ofChar '.' :: (f ++ p)) ∧ factor negative = σ := by
      -- the digits in front of the point may be missing
      by_cases hws : ws = []
      · subst hws
        obtain rfl : w = [] := List.map_eq_nil_iff.mp hw
        exact splitSign_of_isSign hsign (by decide) (by decide)
      · exact splitSign_of_digits hsign hw hws _
    obtain ⟨negative, hsplit, rfl⟩ := hsplit
    have hdigits := splitDigits_of_spells hw (noDigit_cons hpoint (f ++ p))
    have hfraction := splitDigits_of_spells hf (IsPower.noDigit hp)
    obtain ⟨e, he, rfl, rfl⟩ := isPower_iff.mp hp
    refine ⟨.decimal negative ws fs e, ?_, denoted_decimal .., legible_decimal ..⟩
    simp [ofText?, hsplit, hdigits, hfraction, hfs, he, CodePoint.ofChar_inj]
  | @whole sign w p σ ws runs k hsign hw hws hp =>
    obtain ⟨negative, hsplit, rfl⟩ := splitSign_of_digits hsign hw hws p
    have hdigits := splitDigits_of_spells hw (IsPower.noDigit hp)
    obtain ⟨e, he, rfl, rfl⟩ := isPower_iff.mp hp
    refine ⟨.decimal negative ws [] e, ?_, ?_, ?_⟩
    · cases p with
      | nil =>
        cases he
        simp only [ofText?, hsplit, hdigits, if_neg hws]
      | cons mark rest =>
        have hmark : mark = CodePoint.ofChar 'e' ∨ mark = CodePoint.ofChar 'E' := by
          by_contra hnot
          rw [exponent?, if_neg hnot] at he
          cases he
        obtain rfl | rfl := hmark <;>
          simp [ofText?, hsplit, hdigits, hws, he, CodePoint.ofChar_inj]
    · simp [denoted_decimal, positional]
    · simp [legible_decimal]

/-- Everything that is read as a numeral is in the grammar. -/
theorem isNumeral_of_ofText? {t : Text} {n : Numeral} (h : ofText? t = some n) :
    ∃ runs, IsNumeral t runs n.denoted := by
  rcases hsplit : splitSign t with ⟨negative, body⟩
  rcases hdigits : splitDigits body with ⟨whole, rest⟩
  obtain ⟨sign, rfl, hsign⟩ := exists_of_splitSign hsplit
  obtain ⟨w, rfl, hw⟩ := exists_of_splitDigits hdigits
  simp only [ofText?, hsplit, hdigits] at h
  have hwhole : whole ≠ [] → ∀ e, exponent? rest = some e →
      ∃ runs, IsNumeral (sign ++ (w ++ rest)) runs (decimal negative whole [] e).denoted := by
    intro hne e he
    have hnumeral := IsNumeral.whole hsign hw hne (isPower_iff.mpr ⟨e, he, rfl, rfl⟩)
    refine ⟨whole :: powerRuns e, ?_⟩
    simpa [denoted_decimal, positional] using hnumeral
  cases rest with
  | nil =>
    simp only at h
    split at h
    · cases h
    · rename_i hne
      cases h
      exact hwhole hne none rfl
  | cons c after =>
    simp only at h
    split at h
    · rename_i hc
      split at h
      · cases h
      · rename_i hne
        obtain ⟨ds, hds, rfl⟩ := Option.map_eq_some_iff.mp h
        obtain ⟨hspells, hne'⟩ := digits?_eq_some_iff.mp hds
        rw [hc, denoted_ratio]
        exact ⟨_, .ratio hsign hw hne hspells hne'⟩
    split at h
    · rename_i hc
      rcases hfraction : splitDigits after with ⟨fraction, p⟩
      obtain ⟨f, rfl, hf⟩ := exists_of_splitDigits hfraction
      simp only [hfraction] at h
      split at h
      · cases h
      · rename_i hne
        obtain ⟨e, he, rfl⟩ := Option.map_eq_some_iff.mp h
        rw [hc, denoted_decimal]
        exact ⟨_, .point hsign hw hf hne (isPower_iff.mpr ⟨e, he, rfl, rfl⟩)⟩
    split at h
    · cases h
    · rename_i hne
      obtain ⟨e, he, rfl⟩ := Option.map_eq_some_iff.mp h
      exact hwhole hne e he

end Numeral

/-! ### Symbols -/

namespace Reader

open Text Numeral

/-- A numeral is read as what it denotes, if its runs of digits are short enough. -/
theorem ofSymbol_of_isNumeral {token : Text} {runs : List (List Digit)} {q : Option Rat}
    (h : token.IsNumeral runs q) :
    ofSymbol token =
      if ∀ run ∈ runs, run.length ≤ 4300 then
        q.elim (.error (.malformed (.zeroDenominator token))) fun number => .ok (.num number)
      else .error .tooManyDigits := by
  obtain ⟨n, hn, rfl, hlegible⟩ := ofText?_of_isNumeral h
  have htrue : token ≠ Text.ofString "#t" := by
    rintro rfl
    exact absurd hn (by simp [show ofText? (Text.ofString "#t") = none by decide])
  have hfalse : token ≠ Text.ofString "#f" := by
    rintro rfl
    exact absurd hn (by simp [show ofText? (Text.ofString "#f") = none by decide])
  simp only [ofSymbol, if_neg htrue, if_neg hfalse, hn, ← hlegible, denoted]
  by_cases hshort : n.Legible
  · cases n.overZero <;> simp [hshort]
  · simp [hshort]

/-- Any other symbol is read as a boolean or an atom. -/
theorem ofSymbol_of_not_isNumeral {token : Text} (h : ¬ ∃ runs q, token.IsNumeral runs q) :
    ofSymbol token =
      .ok (if token = Text.ofString "#t" then .bool true
        else if token = Text.ofString "#f" then .bool false
        else .atom token) := by
  have hnone : ofText? token = none := by
    cases hn : ofText? token with
    | none => rfl
    | some n =>
      obtain ⟨runs, hnumeral⟩ := isNumeral_of_ofText? hn
      exact absurd ⟨runs, _, hnumeral⟩ h
  unfold ofSymbol
  split
  · rfl
  split
  · rfl
  · rw [hnone]

end Reader

open Reader in
/-- A symbol is taken for a numeral if and only if the grammar says that it is one. It then fails
for its digits if and only if one of its runs has more than 4300 of them, it fails for its
denominator if and only if this does not happen and it is a ratio over zero, and in all other cases
it is the number that the grammar says it denotes. Every other symbol is a boolean or an atom. -/
theorem numerals_denote_exactly (token : Text) :
    ((∃ runs q, token.IsNumeral runs q) ↔
      (∃ q, ofSymbol token = .ok (.num q)) ∨ ∃ failure, ofSymbol token = .error failure) ∧
    (∀ runs q, token.IsNumeral runs q →
      (ofSymbol token = .error .tooManyDigits ↔ ∃ run ∈ runs, 4300 < run.length) ∧
      (ofSymbol token = .error (.malformed (.zeroDenominator token)) ↔
        (∀ run ∈ runs, run.length ≤ 4300) ∧ q = none) ∧
      ∀ number, ofSymbol token = .ok (.num number) ↔
        (∀ run ∈ runs, run.length ≤ 4300) ∧ q = some number) ∧
    ((¬ ∃ runs q, token.IsNumeral runs q) →
      ofSymbol token =
        .ok (if token = Text.ofString "#t" then .bool true
          else if token = Text.ofString "#f" then .bool false
          else .atom token)) := by
  refine ⟨⟨?_, ?_⟩, ?_, ofSymbol_of_not_isNumeral⟩
  · rintro ⟨runs, q, h⟩
    rw [ofSymbol_of_isNumeral h]
    split
    · cases q with
      | none => exact .inr ⟨_, rfl⟩
      | some q => exact .inl ⟨q, rfl⟩
    · exact .inr ⟨_, rfl⟩
  · intro h
    by_contra hnot
    rw [ofSymbol_of_not_isNumeral hnot] at h
    obtain ⟨q, h⟩ | ⟨failure, h⟩ := h
    · split at h
      · cases h
      · split at h <;> cases h
    · cases h
  · intro runs q h
    rw [ofSymbol_of_isNumeral h]
    by_cases hshort : ∀ run ∈ runs, run.length ≤ 4300
    · have hlong : ¬ ∃ run ∈ runs, 4300 < run.length := by simpa using hshort
      rw [if_pos hshort]
      cases q with
      | none => simpa [hlong] using hshort
      | some number => simpa [hlong, eq_comm] using hshort
    · have hlong : ∃ run ∈ runs, 4300 < run.length := by simpa using hshort
      rw [if_neg hshort]
      simp [hshort, hlong]

/-- A numeral with a sign, no integer part and a negative power. -/
theorem numerals_denote_exactly_point :
    Text.IsNumeral "-.5e-1" [[], [5], [1]] (some (-1 / 20)) ∧
    Reader.ofSymbol "-.5e-1" = .ok (.num (-1 / 20)) := by
  have hdigit : Text.SpellsDigits "5" [5] := rfl
  have hpower : Text.IsPower "e-1" [[1]] (-1 * Decimal.positional [1]) :=
    .present (.inl rfl) .minus (rfl : Text.SpellsDigits "1" [1]) (by decide)
  have hvalue : (((-1 : Int) : Rat) * (Decimal.positional [] + Decimal.positional [5] / 10 ^ 1) *
      10 ^ (-1 * (Decimal.positional [1] : Int))) = -1 / 20 := by
    have hfive : Decimal.positional [5] = 5 := rfl
    have hone : Decimal.positional [1] = 1 := rfl
    have hnone : Decimal.positional [] = 0 := rfl
    rw [hfive, hone, hnone]
    norm_num
  have hnumeral : Text.IsNumeral "-.5e-1" [[], [5], [1]] (some (-1 / 20)) := by
    rw [← hvalue]
    exact .point .minus Text.spellsDigits_nil hdigit (by decide) hpower
  refine ⟨hnumeral, ?_⟩
  exact (((numerals_denote_exactly "-.5e-1").2.1 _ _ hnumeral).2.2 _).mpr ⟨by decide, rfl⟩

/-- What comes close to being a numeral is an atom. -/
example : ∀ token ∈ (["1.", "+", ".", "1/2e3", "e5", "1e"] : List String),
    Reader.ofSymbol token = .ok (.atom token) := by decide +kernel

end RationalLisp
