import RationalLisp.Value

/-! # Frames

A frame binds names to values. It keeps its names in the order in which they were first bound, and
binding a name again changes its value in place. -/

namespace RationalLisp

/-- The bindings of a scope, oldest name first. -/
abbrev Frame := List (Text × Value)

namespace Frame

/-- The value of a name. -/
def get? (name : Text) : Frame → Option Value
  | [] => none
  | (n, v) :: rest => if n = name then some v else get? name rest

/-- Bind a name. -/
def set (name : Text) (v : Value) : Frame → Frame
  | [] => [(name, v)]
  | (n, old) :: rest => if n = name then (n, v) :: rest else (n, old) :: set name v rest

/-- The frame that binds the given names in turn. -/
def ofPairs (pairs : List (Text × Value)) : Frame :=
  pairs.foldl (fun frame (name, v) => frame.set name v) []

/-- The names of a frame. -/
def names (frame : Frame) : List Text := frame.map Prod.fst

@[simp] theorem get?_set_self (name : Text) (v : Value) (frame : Frame) :
    (frame.set name v).get? name = some v := by
  induction frame with
  | nil => simp [set, get?]
  | cons b rest ih =>
    by_cases h : b.1 = name <;> simp [set, get?, h, ih]

theorem get?_set_of_ne {name other : Text} (v : Value) (frame : Frame) (h : name ≠ other) :
    (frame.set name v).get? other = frame.get? other := by
  induction frame with
  | nil => simp [set, get?, h]
  | cons b rest ih =>
    by_cases hb : b.1 = name
    · simp [set, get?, hb, h]
    · simp [set, get?, hb, ih]

theorem get?_eq_none_iff {name : Text} {frame : Frame} :
    frame.get? name = none ↔ name ∉ frame.names := by
  induction frame with
  | nil => simp [get?, names]
  | cons b rest ih =>
    by_cases h : b.1 = name
    · simp [get?, names, h]
    · have hmem : name ∈ names (b :: rest) ↔ name ∈ names rest := by simp [names, Ne.symm h]
      rw [hmem, ← ih]
      simp [get?, h]

/-- Binding a name leaves the names as they are, or adds the name at the end. -/
theorem names_set (name : Text) (v : Value) (frame : Frame) :
    (frame.set name v).names = frame.names ∨
      name ∉ frame.names ∧ (frame.set name v).names = frame.names ++ [name] := by
  induction frame with
  | nil => exact .inr ⟨by simp [names], rfl⟩
  | cons b rest ih =>
    by_cases h : b.1 = name
    · exact .inl (by simp [set, names, h])
    · have hset : names (set name v (b :: rest)) = b.1 :: names (set name v rest) := by
        simp [set, names, h]
      rw [hset]
      obtain hsame | ⟨hnew, hadded⟩ := ih
      · exact .inl (by rw [hsame]; rfl)
      · refine .inr ⟨?_, by rw [hadded]; rfl⟩
        simpa [names, Ne.symm h] using hnew

end Frame

end RationalLisp
