import RationalLisp.Proofs.StringLiterals
import Mathlib.Data.Set.List

/-!
# Lists and strings as values

Lists of values are encoded as chains of cells that end in the empty list, and texts as lists of the
numbers of their code points. Decoding undoes encoding and succeeds on nothing else: a value is
decoded only to what it is the encoding of.
-/

namespace RationalLisp

namespace Value

/-! ### Lists -/

/-- A proper list is the encoding of its elements. -/
theorem isList_iff {v : Value} : v.isList = true ↔ ∃ xs, v = ofList xs := by
  induction v with
  | null => exact iff_of_true rfl ⟨[], rfl⟩
  | cell head tail _ ih =>
    rw [isList, ih]
    constructor
    · rintro ⟨xs, rfl⟩
      exact ⟨head :: xs, rfl⟩
    · rintro ⟨xs, hxs⟩
      cases xs with
      | nil => exact nomatch hxs
      | cons x xs => exact ⟨xs, (cell.inj hxs).2⟩
  | _ =>
    refine iff_of_false Bool.false_ne_true ?_
    rintro ⟨xs, hxs⟩
    cases xs with
    | nil => exact nomatch hxs
    | cons x xs => exact nomatch hxs

theorem toList?_eq_some_iff {v : Value} {xs : List Value} :
    v.toList? = some xs ↔ v = ofList xs := by
  constructor
  · exact eq_ofList_of_toList?
  · rintro rfl
    exact toList?_ofList xs

/-- The two walks along a chain agree on whether it is a list. -/
theorem toList?_eq_none_iff {v : Value} : v.toList? = none ↔ v.isList = false := by
  rw [← Bool.not_eq_true, isList_iff, Option.eq_none_iff_forall_ne_some, not_exists]
  exact forall_congr' fun xs => not_congr toList?_eq_some_iff

/-! ### Strings -/

/-- A number that is the number of a code point. -/
def IsCode (v : Value) : Prop := ∃ n : Int, 0 ≤ n ∧ n ≤ 0x10FFFF ∧ v = .num n

/-- Code points are the numbers in their range. -/
theorem isCode_iff {v : Value} : v.IsCode ↔ ∃ c, v = ofCodePoint c := by
  constructor
  · rintro ⟨n, hpos, hle, rfl⟩
    refine ⟨⟨n.toNat, by omega⟩, congrArg num ?_⟩
    exact_mod_cast (Int.toNat_of_nonneg hpos).symm
  · rintro ⟨c, rfl⟩
    exact ⟨c.val, by omega, by omega, congrArg num (by simp)⟩

/-- A value is decoded only to the code point whose number it is. -/
theorem toCodePoint?_eq_some_iff {v : Value} {c : CodePoint} :
    v.toCodePoint? = some c ↔ v = ofCodePoint c := by
  constructor
  · intro h
    cases v with
    | num q =>
      simp only [toCodePoint?, Option.ite_none_right_eq_some, Option.dite_none_right_eq_some] at h
      obtain ⟨⟨hden, hpos⟩, hlt, hc⟩ := h
      rw [← Option.some.inj hc, ofCodePoint]
      refine congrArg num ?_
      calc q = q.num := ((Rat.den_eq_one_iff q).mp hden).symm
        _ = (q.num.toNat : Int) := by rw [Int.toNat_of_nonneg hpos]
        _ = (q.num.toNat : Rat) := Int.cast_natCast _
    | _ => simp [toCodePoint?] at h
  · rintro rfl
    exact toCodePoint?_ofCodePoint c

/-- Values are decoded one by one. -/
theorem mapM_toCodePoint?_eq_some_iff {xs : List Value} {t : Text} :
    xs.mapM toCodePoint? = some t ↔ xs = t.map ofCodePoint := by
  induction xs generalizing t with
  | nil => cases t <;> simp
  | cons x xs ih =>
    rw [List.mapM_cons]
    simp only [Option.bind_eq_bind, Option.bind_eq_some_iff, toCodePoint?_eq_some_iff, ih]
    constructor
    · rintro ⟨c, rfl, codes, rfl, ht⟩
      rw [← Option.some.inj ht, List.map_cons]
    · intro hxs
      obtain ⟨c, codes, rfl, hx, hcodes⟩ := List.map_eq_cons_iff.mp hxs.symm
      exact ⟨c, hx.symm, codes, hcodes.symm, rfl⟩

/-- A value is decoded only to the text whose string it is. -/
theorem toText?_eq_some_iff {v : Value} {t : Text} : v.toText? = some t ↔ v = ofText t := by
  rw [toText?, Option.bind_eq_some_iff]
  simp only [toList?_eq_some_iff, mapM_toCodePoint?_eq_some_iff]
  constructor
  · rintro ⟨xs, rfl, rfl⟩
    rfl
  · rintro rfl
    exact ⟨_, rfl, rfl⟩

/-- A value is a string if it is a list of numbers of code points. -/
theorem exists_toText?_eq_some_iff {v : Value} :
    (∃ t, v.toText? = some t) ↔ v.isList = true ∧ ∀ xs, v = ofList xs → ∀ x ∈ xs, x.IsCode := by
  simp only [toText?_eq_some_iff, isList_iff]
  constructor
  · rintro ⟨t, rfl⟩
    refine ⟨⟨_, rfl⟩, fun xs hxs x hx => ?_⟩
    rw [ofText, ← toList?_eq_some_iff, toList?_ofList] at hxs
    rw [← Option.some.inj hxs] at hx
    obtain ⟨c, -, rfl⟩ := List.mem_map.mp hx
    exact isCode_iff.mpr ⟨c, rfl⟩
  · rintro ⟨⟨xs, rfl⟩, hcodes⟩
    have hxs : xs ∈ Set.range (List.map ofCodePoint) := by
      rw [Set.range_list_map]
      intro x hx
      obtain ⟨c, hc⟩ := isCode_iff.mp (hcodes xs rfl x hx)
      exact ⟨c, hc.symm⟩
    obtain ⟨t, rfl⟩ := hxs
    exact ⟨t, rfl⟩

end Value

/-- Lists and texts are encoded as values without loss, and nothing but their encodings is
decoded. -/
theorem encodings_are_exact :
    -- lists
    (∀ xs, (Value.ofList xs).toList? = some xs) ∧
    (∀ e : Value, e.toList? = none ↔ e.isList = false) ∧
    (∀ e : Value, e.isList = true → ∃ xs, e.toList? = some xs ∧ Value.ofList xs = e) ∧
    -- texts
    (∀ e : Value, (∃ t, e.toText? = some t) ↔
      e.isList = true ∧ ∀ xs, e.toList? = some xs →
        ∀ x ∈ xs, ∃ n : Int, 0 ≤ n ∧ n ≤ 0x10FFFF ∧ x = .num n) ∧
    ∀ (t : Text) (e : Value), e.toText? = some t ↔ e = .ofText t := by
  refine ⟨Value.toList?_ofList, fun e => Value.toList?_eq_none_iff, fun e he => ?_, fun e => ?_,
    fun t e => Value.toText?_eq_some_iff⟩
  · obtain ⟨xs, rfl⟩ := Value.isList_iff.mp he
    exact ⟨xs, Value.toList?_ofList xs, rfl⟩
  · simp only [Value.toList?_eq_some_iff]
    exact Value.exists_toText?_eq_some_iff

end RationalLisp
