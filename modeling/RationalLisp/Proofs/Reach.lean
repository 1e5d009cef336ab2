import RationalLisp.Proofs.Contents

/-!
# Frames within reach

Evaluation comes to a frame by way of the stack, or through a closure that has captured it; and it
comes to a closure through the expression, a binding, or the body of another closure. What is within
reach at the beginning of a run, together with everything made during the run, is closed under all
that evaluation can do (`Sealed`), so the set of frames that a run may touch does not have to change
as the run goes on.
-/

namespace RationalLisp

namespace Store

section Bindings

variable {s : Store} {id other : FrameId} {name n : Text} {v v' : Value}

theorem frame_bindAt_of_ne (h : other ≠ id) : (s.bindAt id name v).frame other = s.frame other := by
  simp only [frame, bindAt, Array.getD_eq_getD_getElem?, Array.getElem?_modify]
  rw [if_neg h.symm]

/-- After a binding, a name has the value just bound or the value it had. -/
theorem get?_frame_bindAt (h : ((s.bindAt id name v).frame other).get? n = some v') :
    v' = v ∨ (s.frame other).get? n = some v' := by
  by_cases hother : other = id
  · simp only [frame, bindAt, Array.getD_eq_getD_getElem?, Array.getElem?_modify] at h ⊢
    rw [if_pos hother.symm] at h
    cases hframe : s.frames[other]? with
    | none =>
      rw [hframe] at h
      exact absurd h (by simp [Frame.get?])
    | some frame =>
      rw [hframe] at h
      simp only [Option.map_some, Option.getD_some] at h ⊢
      by_cases hname : name = n
      · subst hname
        rw [Frame.get?_set_self] at h
        exact .inl (Option.some.inj h).symm
      · rw [Frame.get?_set_of_ne v frame hname] at h
        exact .inr h
  · rw [frame_bindAt_of_ne hother] at h
    exact .inr h

theorem frame_enter_of_ne {frame : Frame} {c : Stack} (h : other ≠ s.frames.size) :
    (s.enter frame c).frame other = s.frame other := by
  simp only [Store.frame, enter, Array.getD_eq_getD_getElem?, Array.getElem?_push]
  rw [if_neg h]

/-- On entering a scope, a name has a value of the new frame or the value it had. -/
theorem get?_frame_enter {frame : Frame} {c : Stack}
    (h : ((s.enter frame c).frame other).get? n = some v') :
    frame.get? n = some v' ∨ (s.frame other).get? n = some v' := by
  by_cases hother : other = s.frames.size
  · subst hother
    have hframe : (s.enter frame c).frame s.frames.size = frame := by
      simp [Store.frame, enter, Array.getD_eq_getD_getElem?]
    exact .inl (hframe ▸ h)
  · rw [frame_enter_of_ne hother] at h
    exact .inr h

end Bindings

end Store

/-! ### Reach -/

section Reach

variable (inside : Code → List Value) (s : Store) (e : Value)

mutual

/-- The frames within reach of an expression: those on the stack, and those that a procedure within
reach has captured. The parameter says which values count as part of the code of a procedure. -/
inductive Reachable : FrameId → Prop
  | stack {id : FrameId} : id ∈ s.stack → Reachable id
  | captured {p : ProcId} {c : Stack} {id : FrameId} : Held p →
      c ∈ (s.procedures.get p).code.captures → id ∈ c → Reachable id

/-- The procedures within reach of an expression: those in the expression, in the values that
frames within reach bind, and in the code of procedures within reach. -/
inductive Held : ProcId → Prop
  | expression {p : ProcId} : p ∈ e.procs → Held p
  | bound {id : FrameId} {name : Text} {v : Value} {p : ProcId} : Reachable id →
      (s.frame id).get? name = some v → p ∈ v.procs → Held p
  | inside {p : ProcId} {v : Value} {q : ProcId} : Held p →
      v ∈ inside (s.procedures.get p).code → q ∈ v.procs → Held q

end

end Reach

/-- Frames and procedures that lead to no others include all that is within reach. -/
theorem Reachable.within {inside : Code → List Value} {s : Store} {e : Value}
    (frames : FrameId → Prop) (procs : ProcId → Prop)
    (hstack : ∀ id ∈ s.stack, frames id) (he : e.Within procs)
    (hvalues : ∀ id, frames id → ∀ name v, (s.frame id).get? name = some v → v.Within procs)
    (hcaptures : ∀ p, procs p → ∀ c ∈ (s.procedures.get p).code.captures, ∀ id ∈ c, frames id)
    (hinside : ∀ p, procs p → ∀ v ∈ inside (s.procedures.get p).code, v.Within procs)
    {id : FrameId} (h : Reachable inside s e id) : frames id := by
  refine @Reachable.rec inside s e (fun id _ => frames id) (fun p _ => procs p)
    ?stack ?captured ?expression ?bound ?inside id h
  case stack =>
    intro id hid
    exact hstack id hid
  case captured =>
    intro p c id _ hc hid hp
    exact hcaptures p hp c hc id hid
  case expression =>
    intro p hp
    exact he p hp
  case bound =>
    intro id name v p _ hget hp hid
    exact hvalues id hid name v hget p hp
  case inside =>
    intro p v q _ hv hq hp
    exact hinside p hp v hv q hq

/-- The given frames and procedures lead to no others. All that is yet to be made is among them. -/
structure Sealed (frames : FrameId → Prop) (procs : ProcId → Prop) (s : Store) : Prop where
  newFrame : ∀ id, s.frames.size ≤ id → frames id
  newProc : ∀ p, s.procedures.size ≤ p → procs p
  stack : ∀ id ∈ s.stack, frames id
  values : ∀ id, frames id → ∀ name v, (s.frame id).get? name = some v → v.Within procs
  code : ∀ p, procs p → (s.procedures.get p).code.Within procs fun c => ∀ id ∈ c, frames id

namespace Sealed

variable {frames : FrameId → Prop} {procs : ProcId → Prop} {s : Store}

theorem lookup (h : Sealed frames procs s) {name : Text} {v : Value}
    (hv : s.lookup? name = some v) : v.Within procs := by
  have hlookup : ∀ c : Stack, (∀ id ∈ c, frames id) → s.lookupIn name c = some v →
      v.Within procs := by
    intro c hc hv
    induction c with
    | nil => exact nomatch hv
    | cons id rest ih =>
      unfold Store.lookupIn at hv
      split at hv
      · rename_i w hw
        rw [← Option.some.inj hv]
        exact h.values id (hc id List.mem_cons_self) name w hw
      · exact ih (fun id' hid => hc id' (List.mem_cons_of_mem id hid)) hv
  exact hlookup s.stack h.stack hv

theorem bindAt (h : Sealed frames procs s) (id : FrameId) (name : Text) {v : Value}
    (hv : v.Within procs) : Sealed frames procs (s.bindAt id name v) := by
  refine ⟨by simpa [Store.bindAt] using h.newFrame, h.newProc, h.stack,
    fun other hother n v' hget => ?_, h.code⟩
  obtain rfl | hget := Store.get?_frame_bindAt hget
  · exact hv
  · exact h.values other hother n v' hget

theorem allocate (h : Sealed frames procs s) {p : Procedure}
    (hp : p.code.Within procs fun c => (∀ id ∈ c, frames id) ∨ c = s.stack) :
    Sealed frames procs (s.allocate p) := by
  refine ⟨h.newFrame, fun q hq => h.newProc q ?_, h.stack, h.values, fun id hid => ?_⟩
  · simp only [Store.allocate, Array.size_push] at hq
    omega
  have hget : (s.allocate p).procedures.get id =
      if id = s.procedures.size then p else s.procedures.get id := by
    simp only [Store.allocate, Procedures.get, Array.getD_eq_getD_getElem?, Array.getElem?_push]
    split <;> rfl
  rw [hget]
  split
  · refine hp.mono (fun _ hq => hq) fun c hc => ?_
    obtain hc | rfl := hc
    · exact hc
    · exact h.stack
  · exact h.code id hid

theorem enter (h : Sealed frames procs s) {frame : Frame} {c : Stack}
    (hframe : frame.Within procs) (hc : ∀ id ∈ c, frames id) :
    Sealed frames procs (s.enter frame c) := by
  refine ⟨fun id hid => h.newFrame id ?_, h.newProc, fun id hid => ?_,
    fun id hid name v hget => ?_, h.code⟩
  · simp only [Store.enter, Array.size_push] at hid
    omega
  · obtain rfl | hid := List.mem_cons.mp hid
    · exact h.newFrame s.frames.size (Nat.le_refl _)
    · exact hc id hid
  · obtain hget | hget := Store.get?_frame_enter hget
    · exact hframe.get? hget
    · exact h.values id hid name v hget

theorem leave {t : Store} (h : Sealed frames procs t) (hstack : ∀ id ∈ t.leave.stack, frames id) :
    Sealed frames procs t.leave := by
  have hframes : t.leave.frames = t.frames := by
    unfold Store.leave
    split <;> rfl
  have hprocedures : t.leave.procedures = t.procedures := by
    unfold Store.leave
    split <;> rfl
  refine ⟨by rw [hframes]; exact h.newFrame, by rw [hprocedures]; exact h.newProc, hstack,
    fun id hid name v hget => ?_, fun p hp => ?_⟩
  · rw [Store.frame, hframes] at hget
    exact h.values id hid name v hget
  · rw [hprocedures]
    exact h.code p hp

/-- What is within reach leads to nothing else, and neither does what is yet to be made. -/
theorem of_reach (s : Store) (e : Value) :
    Sealed (fun id => Reachable Code.bodies s e id ∨ s.frames.size ≤ id)
      (fun p => Held Code.bodies s e p ∨ s.procedures.size ≤ p) s := by
  constructor
  · exact fun id hid => .inr hid
  · exact fun p hp => .inr hp
  · exact fun id hid => .inl (.stack hid)
  · rintro id (hid | hid) name v hget
    · intro p hp
      exact .inl (.bound hid hget hp)
    · have hframe : s.frame id = [] := by
        simp [Store.frame, Array.getD, Nat.not_lt.mpr hid]
      exact absurd hget (by simp [hframe, Frame.get?])
  · rintro p (hp | hp)
    · constructor
      · intro body hbody q hq
        exact .inl (.inside hp hbody hq)
      · intro c hc id hid
        exact .inl (.captured hp hc hid)
    · have hcode : (s.procedures.get p).code = .operands := by
        simp only [Procedures.get, Array.getD, dif_neg (Nat.not_lt.mpr hp)]
        rfl
      rw [hcode]
      exact Code.within_operands

end Sealed

end RationalLisp
