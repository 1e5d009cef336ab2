import RationalLisp.Eval.Builtin
import RationalLisp.Value.Hash

/-!
# Equality and hashing

Equality walks along two chains of cells at once. A further walk is only made for heads, so long
lists need no deep recursion, and two cells that are one object are taken for equal as they are.
None of this shows in the answers: two values are equal if they have the same shape and the same
leaves. Hashing walks in the same way, takes no shortcut, and does not tell equal values apart.

## Implementation notes

To speak of one object, values are taken as they stand in memory: each cell has a place, and one
place holds one cell. Equality of leaves asks what they hold, and procedures are known by their
identity, so leaves do without a place.
-/

namespace RationalLisp

/-! ### Values in memory -/

/-- Where a cell stands in memory. -/
abbrev Place := Nat

/-- A value and the places of its cells. -/
inductive Placed where
  | atom (name : Text)
  | num (value : Rat)
  | bool (value : Bool)
  | null
  | cell (place : Place) (head tail : Placed)
  | proc (id : ProcId)

/-- What stands at each place: the head and the tail of a cell. -/
abbrev Memory := Place → Placed × Placed

namespace Placed

/-- The value as programs see it. -/
def value : Placed → Value
  | .atom name => .atom name
  | .num q => .num q
  | .bool b => .bool b
  | .null => .null
  | .cell _ head tail => .cell head.value tail.value
  | .proc id => .proc id

/-- Whether every cell of a value is the one that stands at its place. -/
def StoredIn (memory : Memory) : Placed → Prop
  | .cell place head tail =>
    memory place = (head, tail) ∧ head.StoredIn memory ∧ tail.StoredIn memory
  | _ => True

/-! ### The loops -/

/-- Equality of two values that are not both cells. -/
def leafEqual : Placed → Placed → Bool
  | .atom x, .atom y => x = y
  | .num x, .num y => x = y
  | .bool x, .bool y => x = y
  | .null, .null => true
  | .proc x, .proc y => x = y
  | _, _ => false

/-- Equality, given what it comes to if both values are cells. -/
def equalBy (loop : Bool) : Placed → Placed → Bool
  | .cell _ _ _, .cell _ _ _ => loop
  | a, b => leafEqual a b

/-- The loop over two chains of cells. It ends with a verdict where one chain is shorter, where both
have come to the same cell and at the first heads that differ, and otherwise with the equality of
the values that end the chains. -/
def walk : Placed → Placed → Bool
  | .cell place head tail, b =>
    match b with
    | .cell place' head' tail' =>
      if place = place' then true
      else if equalBy (walk head head') head head' then walk tail tail'
      else false
    | _ => false
  | a, b => leafEqual a b

/-- Equality of two values. -/
def equal (a b : Placed) : Bool := equalBy (walk a b) a b

/-- The hash of a value, given what it comes to if the value is a cell. -/
def hashBy {H : Type} (hashing : Hashing H) (loop : H) : Placed → H
  | .cell _ _ _ => loop
  | a => hashing.leaf a.value

/-- The loop over a chain of cells, with the hashes of the heads that it has passed. -/
def walkHash {H : Type} (hashing : Hashing H) : Placed → List H → H
  | .cell _ head tail, seen =>
    walkHash hashing tail (seen ++ [hashBy hashing (walkHash hashing head []) head])
  | last, seen => hashing.chain seen (hashing.leaf last.value)

/-- The hash of a value. -/
def hash {H : Type} (hashing : Hashing H) (a : Placed) : H :=
  hashBy hashing (walkHash hashing a []) a

/-! ### Equality of structure -/

/-- Two values of the same kind with equal parts. -/
inductive Alike : Placed → Placed → Prop
  | atom (name : Text) : Alike (.atom name) (.atom name)
  | num (q : Rat) : Alike (.num q) (.num q)
  | bool (b : Bool) : Alike (.bool b) (.bool b)
  | null : Alike .null .null
  | cell {place place' : Place} {head head' tail tail' : Placed} :
    Alike head head' → Alike tail tail' →
      Alike (.cell place head tail) (.cell place' head' tail')
  | proc (id : ProcId) : Alike (.proc id) (.proc id)

theorem Alike.refl (a : Placed) : Alike a a := by
  induction a with
  | cell place head tail ihHead ihTail => exact .cell ihHead ihTail
  | _ => constructor

/-- Values are alike if they differ in their places only. -/
theorem alike_iff {a b : Placed} : Alike a b ↔ a.value = b.value := by
  constructor
  · intro h
    induction h with
    | cell _ _ ihHead ihTail => rw [value, value, ihHead, ihTail]
    | _ => rfl
  · intro h
    induction a generalizing b with
    | cell place head tail ihHead ihTail =>
      cases b with
      | cell place' head' tail' =>
        rw [value, value, Value.cell.injEq] at h
        exact .cell (ihHead h.1) (ihTail h.2)
      | _ => exact nomatch h
    | _ =>
      -- only a value of the same kind can be the same value
      cases b <;> cases h
      constructor

theorem alike_cell_iff {place place' : Place} {head head' tail tail' : Placed} :
    Alike (.cell place head tail) (.cell place' head' tail') ↔
      Alike head head' ∧ Alike tail tail' := by
  simp only [alike_iff, value, Value.cell.injEq]

theorem hashBy_value {H : Type} (hashing : Hashing H) (loop : H) (a : Placed) :
    a.value.hashBy hashing loop = hashBy hashing loop a := by
  cases a <;> rfl

/-- One place holds one cell. -/
theorem eq_of_storedIn {memory : Memory} {place : Place} {head tail head' tail' : Placed}
    (h : (cell place head tail).StoredIn memory) (h' : (cell place head' tail').StoredIn memory) :
    head = head' ∧ tail = tail' :=
  Prod.mk.inj (h.1.symm.trans h'.1)

/-! ### What the loops come to -/

theorem equal_eq_walk (a b : Placed) : equal a b = walk a b := by
  cases a <;> cases b <;> rfl

/-- The loop finds values equal if they are alike. -/
theorem walk_iff {memory : Memory} {a b : Placed} (ha : a.StoredIn memory)
    (hb : b.StoredIn memory) : walk a b = true ↔ Alike a b := by
  induction a generalizing b with
  | cell place head tail ihHead ihTail =>
    cases b with
    | cell place' head' tail' =>
      by_cases hplace : place = place'
      · -- the shortcut: what stands at one place is one cell
        subst hplace
        obtain ⟨rfl, rfl⟩ := eq_of_storedIn ha hb
        exact iff_of_true (by simp [walk]) (.refl _)
      · have hhead : equalBy (walk head head') head head' = true ↔ Alike head head' := by
          rw [← equal, equal_eq_walk]
          exact ihHead ha.2.1 hb.2.1
        have htail : walk tail tail' = true ↔ Alike tail tail' := ihTail ha.2.2 hb.2.2
        rw [alike_cell_iff, ← hhead, ← htail]
        simp [walk, hplace]
    | _ => exact iff_of_false Bool.false_ne_true nofun
  | _ =>
    rw [alike_iff]
    cases b <;> simp [walk, leafEqual, value]

/-- The loop of the hash does not look at places. -/
theorem walkHash_value {H : Type} (hashing : Hashing H) (a : Placed) (seen : List H) :
    a.value.walkHash hashing seen = walkHash hashing a seen := by
  induction a generalizing seen with
  | cell place head tail ihHead ihTail =>
    rw [value, Value.walkHash, walkHash, ihHead, ihTail, hashBy_value]
  | _ => rfl

theorem hashWith_value {H : Type} (hashing : Hashing H) (a : Placed) :
    a.value.hashWith hashing = a.hash hashing := by
  rw [Value.hashWith, hash, walkHash_value, hashBy_value]

theorem Alike.hash_eq {H : Type} (hashing : Hashing H) {a b : Placed} (h : Alike a b) :
    a.hash hashing = b.hash hashing := by
  rw [← hashWith_value, ← hashWith_value, alike_iff.mp h]

end Placed

namespace Value

/-- Programs observe equality of structure. -/
theorem same_iff {x y : Value} : x.same y = true ↔ x = y := by
  refine ⟨fun h => ?_, (verdict x y).2⟩
  induction x generalizing y with
  | cell head tail ihHead ihTail =>
    cases y with
    | cell head' tail' =>
      rw [same_cell, Bool.and_eq_true] at h
      rw [ihHead h.1, ihTail h.2]
    | _ => exact absurd (show false = true from h) Bool.false_ne_true
  | null =>
    cases y with
    | null => rfl
    | _ => exact absurd (show false = true from h) Bool.false_ne_true
  | _ =>
    -- what holds something is compared by that
    cases y <;> first
      | exact congrArg _ (of_decide_eq_true h)
      | exact absurd (show false = true from h) Bool.false_ne_true

theorem same_eq_decide (x y : Value) : x.same y = decide (x = y) := by
  rw [Bool.eq_iff_iff, same_iff, decide_eq_true_iff]

end Value

/-- The loops compute equality of structure. For values that stand in one memory, equality by the
loop holds if and only if they are of the same kind with equal parts, and it is what `=` answers
with, which does not depend on where values stand. So equality is reflexive, symmetric and
transitive, and values that are equal have the same hash, whatever hashing is made of, and the same
printed form. The hash does not depend on where values stand either. -/
theorem equality_is_structural {memory : Memory} {a b c : Placed} (ha : a.StoredIn memory)
    (hb : b.StoredIn memory) (hc : c.StoredIn memory) :
    (a.equal b = true ↔ Placed.Alike a b) ∧
    (∀ room s, Builtin.equal.run room [a.value, b.value] s = .ok (.bool (a.equal b)) s) ∧
    (∀ room x y s, Builtin.equal.run room [x, y] s = .ok (.bool (decide (x = y))) s) ∧
    (a.equal a = true ∧ (a.equal b = true → b.equal a = true) ∧
      (a.equal b = true → b.equal c = true → a.equal c = true)) ∧
    (∀ (H : Type) (hashing : Hashing H), a.value.hashWith hashing = a.hash hashing) ∧
    (a.equal b = true →
      (∀ (H : Type) (hashing : Hashing H), a.hash hashing = b.hash hashing) ∧
      ∀ table room, a.value.write table room = b.value.write table room) := by
  have hequal : ∀ {x y : Placed}, x.StoredIn memory → y.StoredIn memory →
      (x.equal y = true ↔ Placed.Alike x y) := by
    intro x y hx hy
    rw [Placed.equal_eq_walk]
    exact Placed.walk_iff hx hy
  have hvalue : ∀ {x y : Placed}, x.StoredIn memory → y.StoredIn memory →
      (x.equal y = true ↔ x.value = y.value) :=
    fun hx hy => (hequal hx hy).trans Placed.alike_iff
  have hrun : ∀ room x y s, Builtin.equal.run room [x, y] s = .ok (.bool (x.same y)) s :=
    fun _ _ _ _ => rfl
  refine ⟨hequal ha hb, fun room s => ?_, fun room x y s => ?_, ⟨?_, ?_, ?_⟩,
    fun H hashing => Placed.hashWith_value hashing a,
    fun h => ⟨fun H hashing => ?_, fun table room => ?_⟩⟩
  · have hsame : a.value.same b.value = a.equal b := by
      rw [Bool.eq_iff_iff, Value.same_iff, hvalue ha hb]
    rw [hrun, hsame]
  · rw [hrun, Value.same_eq_decide]
  · exact (hvalue ha ha).mpr rfl
  · rw [hvalue ha hb, hvalue hb ha]
    exact Eq.symm
  · rw [hvalue ha hb, hvalue hb hc, hvalue ha hc]
    exact Eq.trans
  · exact ((hequal ha hb).mp h).hash_eq hashing
  · rw [(hvalue ha hb).mp h]

namespace Equality

/-- The list of 1, at two places. -/
def one : Placed := .cell 0 (.num 1) .null

def oneElsewhere : Placed := .cell 1 (.num 1) .null

/-- The list of 1 twice, as one object and as two, with an end that is no list. -/
def sharing : Placed := .cell 2 one (.cell 3 one (.proc 0))

def apart : Placed := .cell 4 one (.cell 5 oneElsewhere (.proc 0))

/-- A memory that holds the values above. -/
def memory : Memory
  | 0 | 1 => (.num 1, .null)
  | 2 => (one, .cell 3 one (.proc 0))
  | 3 => (one, .proc 0)
  | 4 => (one, .cell 5 oneElsewhere (.proc 0))
  | _ => (oneElsewhere, .proc 0)

end Equality

open Equality in
/-- Sharing does not show: the walk takes the shortcut at the first heads and compares the second
ones, and the hashes are the same. Another end makes a difference. -/
theorem equality_is_structural_shared :
    sharing.equal apart = true ∧
    (∀ (H : Type) (hashing : Hashing H), sharing.hash hashing = apart.hash hashing) ∧
    apart.equal one = false := by
  have hsharing : sharing.StoredIn memory := ⟨rfl, ⟨rfl, trivial, trivial⟩, rfl,
    ⟨rfl, trivial, trivial⟩, trivial⟩
  have hapart : apart.StoredIn memory := ⟨rfl, ⟨rfl, trivial, trivial⟩, rfl,
    ⟨rfl, trivial, trivial⟩, trivial⟩
  have hone : one.StoredIn memory := ⟨rfl, trivial, trivial⟩
  obtain ⟨hequal, -, -, -, -, hparts⟩ := equality_is_structural hsharing hapart hone
  have hshared : sharing.equal apart = true := hequal.mpr
    (.cell (.refl _) (.cell (.cell (.num 1) .null) (.proc 0)))
  exact ⟨hshared, (hparts hshared).1, rfl⟩

end RationalLisp
