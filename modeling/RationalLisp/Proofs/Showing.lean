import RationalLisp.Value.Printer
import Mathlib.Order.Lattice

/-!
# Showing values where room is limited

A value is written if its numbers are short enough and there is room for the lists in its lists, and
what is written then is its printed form. Otherwise writing fails at what comes first in the text.
More room changes nothing but a failure for want of room.
-/

namespace RationalLisp

namespace Value

/-- Whether every number in a value is short enough to be written. -/
def Printable : Value → Prop
  | .num q => Decimal.Writable q.num ∧ Decimal.Writable q.den
  | .cell head tail => head.Printable ∧ tail.Printable
  | _ => True

/-- `Printable` can be checked. -/
def decidePrintable : (v : Value) → Decidable v.Printable
  | .num q => inferInstanceAs (Decidable (Decimal.Writable q.num ∧ Decimal.Writable q.den))
  | .cell head tail =>
    haveI := decidePrintable head
    haveI := decidePrintable tail
    inferInstanceAs (Decidable (head.Printable ∧ tail.Printable))
  | .atom _ | .bool _ | .null | .proc _ => isTrue trivial

instance (v : Value) : Decidable v.Printable := decidePrintable v

/-- The printed form of a value, if all its numbers can be written. It is what is written where there
is room for it. -/
def show? (table : Procedures) (v : Value) : Option Text :=
  if v.Printable then some (v.text table) else none

theorem show?_eq_some_iff {table : Procedures} {v : Value} {t : Text} :
    v.show? table = some t ↔ v.Printable ∧ v.text table = t := by
  unfold show?
  split <;> simp_all

/-- How many levels of lists in lists a value has. -/
def levels : Value → Nat
  | .cell head tail => max (head.levels + 1) tail.levels
  | _ => 0

/-- An attempt to write a text comes off if the numbers in it are short and there is room for it. It
fails for one of the two if it is not so. -/
inductive Attempt (text : Text) (short roomy : Prop) : Except Failure Text → Prop
  | ok : short → roomy → Attempt text short roomy (.ok text)
  | outOfDepth : ¬ roomy → Attempt text short roomy (.error .outOfDepth)
  | tooManyDigits : ¬ short → Attempt text short roomy (.error .tooManyDigits)

section Attempt

variable {t u : Text} {p p' q q' : Prop} {x y : Except Failure Text}

/-- Two attempts, one after the other. -/
theorem Attempt.seq (hx : Attempt t p q x) (hy : Attempt u p' q' y) (f : Text → Text → Text) :
    Attempt (f t u) (p ∧ p') (q ∧ q') (do
      let first ← x
      let rest ← y
      return f first rest) := by
  cases hx with
  | outOfDepth hq => exact .outOfDepth fun h => hq h.1
  | tooManyDigits hp => exact .tooManyDigits fun h => hp h.1
  | ok hp hq =>
    cases hy with
    | outOfDepth hq' => exact .outOfDepth fun h => hq' h.2
    | tooManyDigits hp' => exact .tooManyDigits fun h => hp' h.2
    | ok hp' hq' => exact .ok ⟨hp, hp'⟩ ⟨hq, hq'⟩

theorem Attempt.map (hx : Attempt t p q x) (f : Text → Text) :
    Attempt (f t) p q (do
      let text ← x
      return f text) := by
  cases hx with
  | ok hp hq => exact .ok hp hq
  | outOfDepth hq => exact .outOfDepth hq
  | tooManyDigits hp => exact .tooManyDigits hp

theorem Attempt.congr (hx : Attempt t p q x) (h : q ↔ q') : Attempt t p q' x := by
  rwa [← propext h]

theorem Attempt.eq_ok_iff (hx : Attempt t p q x) : x = .ok u ↔ (p ∧ q) ∧ t = u := by
  cases hx <;> simp_all

end Attempt

variable {table : Procedures}

theorem attempt_writeLeaf {v : Value} (h : ∀ head tail, v ≠ .cell head tail) {roomy : Prop}
    (hroomy : roomy) : Attempt (v.text table) v.Printable roomy (v.writeLeaf table) := by
  cases v with
  | cell head tail => exact absurd rfl (h head tail)
  | num q =>
    rw [writeLeaf]
    by_cases hshort : Decimal.Writable q.num ∧ Decimal.Writable q.den
    · rw [if_pos hshort, text]
      exact .ok hshort hroomy
    · rw [if_neg hshort]
      exact .tooManyDigits hshort
  | _ => exact .ok trivial hroomy

/-- Writing a value, and writing it as the tail of a chain. There is one level less for the heads of
a chain than for the chain. -/
theorem attempt_write_and_tail (v : Value) (room : Nat) :
    Attempt (v.text table) v.Printable (v.levels ≤ room) (v.write table room) ∧
    Attempt (v.tailText table) v.Printable (v.levels ≤ room + 1) (v.writeTail table room) := by
  induction v generalizing room with
  | cell head tail ihHead ihTail =>
    have hlevels : ∀ room, head.levels ≤ room ∧ tail.levels ≤ room + 1 ↔
        (Value.cell head tail).levels ≤ room + 1 := by
      intro room
      simp only [levels, sup_le_iff, Nat.add_le_add_iff_right]
    constructor
    · cases room with
      | zero => exact .outOfDepth (by simp [levels])
      | succ room =>
        rw [text]
        exact ((ihHead room).1.seq (ihTail room).2 fun first rest => '(' :: (first ++ rest)).congr
          (hlevels room)
    · rw [tailText]
      exact ((ihHead room).1.seq (ihTail room).2 fun first rest => ' ' :: (first ++ rest)).congr
        (hlevels room)
  | null =>
    constructor
    · exact attempt_writeLeaf (by simp) (Nat.zero_le _)
    · rw [tailText]
      exact .ok trivial (Nat.zero_le _)
  | _ =>
    constructor
    · exact attempt_writeLeaf (by simp) (Nat.zero_le _)
    · unfold tailText
      let close : Text → Text := fun t => (" . " : Text) ++ t ++ [(')' : CodePoint)]
      exact Attempt.map (attempt_writeLeaf (by simp) (Nat.zero_le _)) close

theorem attempt_write (v : Value) (room : Nat) :
    Attempt (v.text table) v.Printable (v.levels ≤ room) (v.write table room) :=
  (attempt_write_and_tail v room).1

/-- What is written is the printed form, if there is room for it. -/
theorem write_eq_ok_iff {v : Value} {room : Nat} {t : Text} :
    v.write table room = .ok t ↔ v.show? table = some t ∧ v.levels ≤ room := by
  rw [(attempt_write v room).eq_ok_iff, show?_eq_some_iff]
  exact and_right_comm

/-- What has been written is printable, and it is the printed form that has been written. -/
theorem printable_of_write {v : Value} {room : Nat} {t : Text} (h : v.write table room = .ok t) :
    v.Printable ∧ v.text table = t :=
  show?_eq_some_iff.mp (write_eq_ok_iff.mp h).1

/-- Where there is room, only the digits of numbers count. -/
theorem write_of_levels_le {v : Value} {room : Nat} (h : v.levels ≤ room) :
    v.write table room = match v.show? table with
      | some t => .ok t
      | none => .error .tooManyDigits := by
  have hwrite : Attempt _ _ _ (v.write table room) := attempt_write v room
  generalize v.write table room = x at hwrite
  cases hwrite with
  | ok hshort _ => rw [show?, if_pos hshort]
  | outOfDepth hroom => exact absurd h hroom
  | tooManyDigits hlong => rw [show?, if_neg hlong]

/-- Writing fails in two ways. -/
theorem write_cases (table : Procedures) (room : Nat) (v : Value) :
    (∃ t, v.write table room = .ok t) ∨
      v.write table room = .error .outOfDepth ∧ room < v.levels ∨
      v.write table room = .error .tooManyDigits ∧ v.show? table = none := by
  have hwrite : Attempt _ _ _ (v.write table room) := attempt_write v room
  generalize v.write table room = x at hwrite
  cases hwrite with
  | ok _ _ => exact .inl ⟨_, rfl⟩
  | outOfDepth hroom => exact .inr (.inl ⟨rfl, Nat.lt_of_not_le hroom⟩)
  | tooManyDigits hlong => exact .inr (.inr ⟨rfl, if_neg hlong⟩)

/-! ### More room -/

/-- The second attempt is the first one, or the first one fails for want of room. -/
def GoesOn (x y : Except Failure Text) : Prop := x = .error .outOfDepth ∨ y = x

theorem GoesOn.seq {x x' y y' : Except Failure Text} (hx : GoesOn x x') (hy : GoesOn y y')
    (f : Text → Text → Text) :
    GoesOn (do
        let first ← x
        let rest ← y
        return f first rest)
      (do
        let first ← x'
        let rest ← y'
        return f first rest) := by
  obtain rfl | rfl := hx
  · exact .inl rfl
  · cases x' with
    | error failure => exact .inr rfl
    | ok first =>
      obtain rfl | rfl := hy
      · exact .inl rfl
      · exact .inr rfl

theorem goesOn_write_and_tail (v : Value) {room room' : Nat} (h : room ≤ room') :
    GoesOn (v.write table room) (v.write table room') ∧
      GoesOn (v.writeTail table room) (v.writeTail table room') := by
  induction v generalizing room room' with
  | cell head tail ihHead ihTail =>
    constructor
    · cases room with
      | zero => exact .inl rfl
      | succ room =>
        obtain ⟨room', rfl⟩ := Nat.exists_eq_succ_of_ne_zero (Nat.ne_zero_of_lt h)
        have hle := Nat.le_of_succ_le_succ h
        exact (ihHead hle).1.seq (ihTail hle).2 _
    · exact (ihHead h).1.seq (ihTail h).2 _
  | _ => exact ⟨.inr rfl, .inr rfl⟩

/-- More room matters only where there is too little of it. -/
theorem write_mono (table : Procedures) (v : Value) {room room' : Nat} (h : room ≤ room') :
    v.write table room = .error .outOfDepth ∨ v.write table room' = v.write table room :=
  (goesOn_write_and_tail v h).1

end Value

end RationalLisp
