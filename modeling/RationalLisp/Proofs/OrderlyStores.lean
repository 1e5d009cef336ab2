import RationalLisp.Proofs.Changes

/-!
# Orderly stores

What can be relied on in the store of a session at all times. A procedure takes as many operands as
its code is written for. A composition is made of code that belongs to procedures in their own
right, and is checked against the arity of its outer part. Every stack ends with the global frame,
which is the first frame made; outside of all closures it is the only frame on the stack.

The operations on stores keep all this, and what code is known stays known.
-/

namespace RationalLisp

/-- The number of operands that code is written for. -/
def Code.arity : Code → Arity
  | .primitive p => p.arity
  | .closure params _ _ => params.arity
  | .composition _ _ _ inner => inner.arity
  | .operands => .variadic

/-! ### Tables of procedures -/

namespace Procedures

variable {table : Procedures}

theorem get_push (table : Procedures) (p : Procedure) (id : ProcId) :
    get (table.push p) id = if id = table.size then p else table.get id := by
  unfold get
  rcases Nat.lt_trichotomy id table.size with hlt | rfl | hgt
  · simp [Array.getD, hlt, hlt.ne, Nat.lt_succ_of_lt hlt, Array.getElem_push_lt]
  · simp [Array.getD]
  · simp [Array.getD, hgt.ne', hgt.not_gt, Nat.not_lt.mpr (Nat.succ_le_of_lt hgt)]

/-- Beyond the table stands the procedure that lists its operands. -/
theorem get_eq_default_or_mem (table : Procedures) (id : ProcId) :
    table.get id = default ∨ table.get id ∈ table.toList := by
  unfold get
  by_cases hid : id < table.size
  · right
    simp [Array.getD, hid]
  · left
    simp [Array.getD, hid]

/-- The code belongs to a procedure. -/
def Knows (table : Procedures) (code : Code) : Prop := ∃ id, (table.get id).code = code

theorem knows_get (table : Procedures) (id : ProcId) : table.Knows (table.get id).code := ⟨id, rfl⟩

theorem Knows.push {code : Code} (h : table.Knows code) (p : Procedure) :
    Knows (table.push p) code := by
  obtain ⟨id, rfl⟩ := h
  by_cases hid : id = table.size
  · -- the new procedure takes a place that stood for the list of operands before
    refine ⟨id + 1, ?_⟩
    have hnext : get (table.push p) (id + 1) = table.get id := by
      rw [get_push, if_neg (by simp [hid])]
      simp [get, Array.getD, hid]
    rw [hnext]
  · exact ⟨id, by rw [get_push, if_neg hid]⟩

/-- The procedure is in order: its arity is that of its code, it is composed of known code under the
arity of the outer part, and what it has captured ends with the global frame. -/
structure Admits (table : Procedures) (p : Procedure) : Prop where
  arity : p.arity = p.code.arity
  parts : ∀ {name arity outer inner}, p.code = .composition name arity outer inner →
    arity = outer.arity ∧ table.Knows outer ∧ table.Knows inner
  captures : ∀ c ∈ p.code.captures, c.getLast? = some 0

theorem Admits.push {p : Procedure} (h : table.Admits p) (q : Procedure) :
    Admits (table.push q) p := by
  refine ⟨h.arity, fun hcode => ?_, h.captures⟩
  obtain ⟨harity, houter, hinner⟩ := h.parts hcode
  exact ⟨harity, houter.push q, hinner.push q⟩

theorem admits_default : table.Admits default :=
  ⟨rfl, (nomatch ·), fun _ hc => nomatch hc⟩

theorem admits_primitive (p : Primitive) : table.Admits (.ofPrimitive p) :=
  ⟨rfl, (nomatch ·), fun _ hc => nomatch hc⟩

theorem admits_closure {evaluates : Bool} {params : Params} {body : Value} {c : Stack}
    (h : c.getLast? = some 0) : table.Admits (.closure evaluates params body c) := by
  refine ⟨rfl, (nomatch ·), fun c' hc' => ?_⟩
  rw [List.mem_singleton.mp hc']
  exact h

theorem admits_compose {outer inner : ProcId} (houter : table.Admits (table.get outer))
    (hinner : table.Admits (table.get inner)) :
    table.Admits ((table.get outer).compose (table.get inner)) := by
  refine ⟨hinner.arity, ?_, ?_⟩
  · intro name arity f g hcode
    cases hcode
    exact ⟨houter.arity, table.knows_get outer, table.knows_get inner⟩
  · intro c hc
    exact (List.mem_append.mp hc).elim (houter.captures c) (hinner.captures c)

end Procedures

/-! ### Stacks -/

/-- The present stack and the stacks put aside: the one that was put aside first is the global frame
alone, and every later one has a frame on top of a stack that ends with the global frame. -/
def Grounded : Stack → List Stack → Prop
  | stack, [] => stack = [0]
  | stack, outside :: pending =>
    (∃ id base, stack = id :: base ∧ base.getLast? = some 0) ∧ Grounded outside pending

theorem Grounded.getLast? {stack : Stack} {pending : List Stack} (h : Grounded stack pending) :
    stack.getLast? = some 0 := by
  cases pending with
  | nil =>
    rw [show stack = [0] from h]
    rfl
  | cons outside pending =>
    obtain ⟨⟨id, base, rfl, hbase⟩, -⟩ := h
    rw [List.getLast?_cons, hbase]
    rfl

namespace Store

/-- The body of a closure is running: its scope has been entered and not been left. -/
def InClosure (s : Store) : Prop := s.pending ≠ []

/-- The procedures of the store and its stacks are in order. -/
structure Orderly (s : Store) : Prop where
  procedures : ∀ id, s.procedures.Admits (s.procedures.get id)
  scopes : Grounded s.stack s.pending

namespace Orderly

variable {s : Store}

theorem bindAt (h : s.Orderly) (id : FrameId) (name : Text) (v : Value) :
    (s.bindAt id name v).Orderly := ⟨h.procedures, h.scopes⟩

theorem allocate (h : s.Orderly) {p : Procedure} (hp : s.procedures.Admits p) :
    (s.allocate p).Orderly := by
  refine ⟨fun id => ?_, h.scopes⟩
  change Procedures.Admits (s.procedures.push p) (Procedures.get (s.procedures.push p) id)
  rw [Procedures.get_push]
  split
  · exact hp.push p
  · exact (h.procedures id).push p

theorem enter (h : s.Orderly) (frame : Frame) {base : Stack} (hbase : base.getLast? = some 0) :
    (s.enter frame base).Orderly := ⟨h.procedures, ⟨_, base, rfl, hbase⟩, h.scopes⟩

theorem leave (h : s.Orderly) : s.leave.Orderly := by
  unfold Store.leave
  split
  · exact h
  · rename_i stack pending hpending
    have hscopes := h.scopes
    rw [hpending] at hscopes
    exact ⟨h.procedures, hscopes.2⟩

/-- The forms and the global frame are in order before anything else is there. -/
theorem initial (journal : Journal) : ((Store.initial journal).push []).Orderly := by
  refine ⟨fun id => ?_, rfl⟩
  change Procedures.Admits (Store.initial journal).procedures
    ((Store.initial journal).procedures.get id)
  obtain hdefault | hmem := (Store.initial journal).procedures.get_eq_default_or_mem id
  · rw [hdefault]
    exact Procedures.admits_default
  · obtain ⟨f, -, hf⟩ := List.mem_map.mp hmem
    rw [← hf]
    exact Procedures.admits_primitive _

/-- Every stack that a closure has captured ends with the global frame. -/
theorem getLast?_of_mem_captures (h : s.Orderly) {c : Stack} (hc : c ∈ s.captures) :
    c.getLast? = some 0 := by
  obtain ⟨p, hp, hc⟩ := List.mem_flatMap.mp hc
  obtain ⟨id, hid, rfl⟩ := List.getElem_of_mem hp
  have hget : s.procedures.get id = s.procedures.toList[id] := by
    simp only [Array.length_toList] at hid
    simp [Procedures.get, Array.getD, hid]
  rw [← hget] at hc
  exact (h.procedures id).captures c hc

/-- There is always an innermost frame to bind a name in. -/
theorem bindInnermost (h : s.Orderly) (name : Text) (v : Value) :
    ∃ id, Run.bindInnermost name v s = .ok () (s.bindAt id name v) := by
  cases hstack : s.stack with
  | nil => exact absurd h.scopes.getLast? (by simp [hstack])
  | cons id outer => exact ⟨id, by rw [Simulation.bindInnermost_eq, hstack]⟩

/-- Outside of all closures there is no frame below the innermost one. -/
theorem bindParent_outside (h : s.Orderly) (hout : ¬ s.InClosure) (name : Text) (v : Value) :
    Run.bindParent name v s = .error (.error .noParentScope) s := by
  have hpending : s.pending = [] := not_not.mp hout
  have hscopes := h.scopes
  rw [hpending] at hscopes
  rw [Simulation.bindParent_eq, show s.stack = [0] from hscopes]

/-- In a closure there is a frame below the innermost one. -/
theorem bindParent_inside (h : s.Orderly) (hin : s.InClosure) (name : Text) (v : Value) :
    ∃ parent, Run.bindParent name v s = .ok () (s.bindAt parent name v) := by
  obtain ⟨outside, pending, hpending⟩ := List.exists_cons_of_ne_nil hin
  have hscopes := h.scopes
  rw [hpending] at hscopes
  obtain ⟨⟨id, base, hstack, hbase⟩, -⟩ := hscopes
  have hne : base ≠ [] := by
    rintro rfl
    exact absurd hbase (by simp)
  obtain ⟨parent, outer, rfl⟩ := List.exists_cons_of_ne_nil hne
  exact ⟨parent, by rw [Simulation.bindParent_eq, hstack]⟩

end Orderly

/-- What code is known stays known. -/
def Learns (s t : Store) : Prop :=
  ∀ ⦃code⦄, s.procedures.Knows code → t.procedures.Knows code

namespace Learns

variable {s t u : Store}

theorem refl (s : Store) : s.Learns s := fun _ h => h

theorem trans (h : s.Learns t) (h' : t.Learns u) : s.Learns u := fun _ hcode => h' (h hcode)

theorem allocate (s : Store) (p : Procedure) : s.Learns (s.allocate p) := fun _ h => h.push p

theorem leave (s : Store) : s.Learns s.leave := by
  unfold Store.leave
  split
  · exact refl s
  · exact fun _ h => h

end Learns

end Store

end RationalLisp
