import RationalLisp.Proofs.Reach
import RationalLisp.Proofs.StackDiscipline

/-!
# The frame rule

A frame that is not within reach plays no part in a run: it is never written, and what it binds
makes no difference.
-/

namespace RationalLisp

namespace Store

/-- The same store with other bindings in a frame. -/
def replaceFrame (s : Store) (id : FrameId) (bindings : Frame) : Store :=
  { s with frames := s.frames.setIfInBounds id bindings }

section Replace

variable (s : Store) (id : FrameId) (bindings : Frame)

@[simp] theorem frames_size_replaceFrame :
    (s.replaceFrame id bindings).frames.size = s.frames.size := by
  simp [replaceFrame]

@[simp] theorem procedures_replaceFrame :
    (s.replaceFrame id bindings).procedures = s.procedures := rfl

@[simp] theorem stack_replaceFrame : (s.replaceFrame id bindings).stack = s.stack := rfl

variable {s id bindings}

theorem frame_replaceFrame_self (h : id < s.frames.size) :
    (s.replaceFrame id bindings).frame id = bindings := by
  simp [frame, replaceFrame, Array.getD, h]

theorem frame_replaceFrame_of_ne {other : FrameId} (h : other ≠ id) :
    (s.replaceFrame id bindings).frame other = s.frame other := by
  simp only [frame, replaceFrame, Array.getD_eq_getD_getElem?]
  rw [Array.getElem?_setIfInBounds_ne h.symm]

theorem replaceFrame_bindAt {other : FrameId} (h : other ≠ id) (name : Text) (v : Value) :
    (s.replaceFrame id bindings).bindAt other name v =
      (s.bindAt other name v).replaceFrame id bindings := by
  have hframes : (s.frames.setIfInBounds id bindings).modify other (Frame.set name v) =
      (s.frames.modify other (Frame.set name v)).setIfInBounds id bindings := by
    apply Array.ext_getElem?
    intro i
    by_cases hi : id = i
    · subst hi
      simp [Array.getElem?_modify, Array.getElem?_setIfInBounds, h]
    · simp [Array.getElem?_modify, hi]
  simp only [bindAt, replaceFrame, hframes]

theorem replaceFrame_enter (h : id < s.frames.size) (frame : Frame) (c : Stack) :
    (s.replaceFrame id bindings).enter frame c =
      (s.enter frame c).replaceFrame id bindings := by
  have hframes : (s.frames.setIfInBounds id bindings).push frame =
      (s.frames.push frame).setIfInBounds id bindings := by
    apply Array.ext_getElem?
    intro i
    by_cases hi : id = i
    · subst hi
      have hne : id ≠ s.frames.size := Nat.ne_of_lt h
      have hlt : id < s.frames.size + 1 := Nat.lt_succ_of_lt h
      rw [Array.getElem?_push, Array.getElem?_setIfInBounds, Array.getElem?_setIfInBounds]
      simp only [Array.size_setIfInBounds, Array.size_push, if_neg hne, if_pos h, if_pos hlt,
        if_true]
    · simp [Array.getElem?_push, hi]
  simp only [enter, replaceFrame, hframes, Array.size_setIfInBounds]

theorem replaceFrame_leave :
    (s.replaceFrame id bindings).leave = s.leave.replaceFrame id bindings := by
  unfold leave
  cases hp : s.pending <;> simp [replaceFrame, hp]

end Replace

end Store

namespace Sealed

variable {frames : FrameId → Prop} {procs : ProcId → Prop} {s : Store}

theorem replaceFrame (h : Sealed frames procs s) {id : FrameId} (hid : ¬ frames id)
    (bindings : Frame) : Sealed frames procs (s.replaceFrame id bindings) := by
  refine ⟨by simpa using h.newFrame, h.newProc, h.stack, fun other hother name v hget => ?_,
    h.code⟩
  have hne : other ≠ id := fun heq => hid (heq ▸ hother)
  rw [Store.frame_replaceFrame_of_ne hne] at hget
  exact h.values other hother name v hget

theorem lookup_replaceFrame (h : Sealed frames procs s) {id : FrameId} (hid : ¬ frames id)
    (bindings : Frame) (name : Text) :
    (s.replaceFrame id bindings).lookup? name = s.lookup? name := by
  have hlookup : ∀ c : Stack, (∀ id ∈ c, frames id) →
      (s.replaceFrame id bindings).lookupIn name c = s.lookupIn name c := by
    intro c hc
    induction c with
    | nil => rfl
    | cons other rest ih =>
      have hne : other ≠ id := fun heq => hid (heq ▸ hc other List.mem_cons_self)
      rw [Store.lookupIn, Store.lookupIn, Store.frame_replaceFrame_of_ne hne,
        ih fun id' hid' => hc id' (List.mem_cons_of_mem other hid')]
  exact hlookup s.stack h.stack

end Sealed

/-! ### Two runs -/

/-- Two runs that differ in a frame out of reach go on to differ in that frame only, and the frame
stays as it is. -/
theorem Simulation.replaceFrame {frames : FrameId → Prop} {procs : ProcId → Prop} {id : FrameId}
    (hid : ¬ frames id) (bindings : Frame) :
    Simulation (W := Unit) (fun _ => procs) (fun _ c => ∀ i ∈ c, frames i)
      (fun _ s t => s = t.replaceFrame id bindings ∧ Sealed frames procs t)
      (fun s m => m.store.frame id = s.frame id) where
  allowed_mono _ _ h := h
  base_mono _ _ h := h
  stack_eq h := by rw [h.1, Store.stack_replaceFrame]
  procedures_eq h := by rw [h.1, Store.procedures_replaceFrame]
  lookup_eq h name := by rw [h.1, h.2.lookup_replaceFrame hid]
  lookup_within := by
    rintro w s t ⟨rfl, ht⟩ name v hv
    rw [ht.lookup_replaceFrame hid] at hv
    exact ht.lookup hv
  code_within := by
    rintro w s t ⟨rfl, ht⟩ p hp
    exact ⟨w, le_rfl, ⟨rfl, ht⟩, ht.code p hp⟩
  link_refl _ := rfl
  link_trans h h' := h'.trans h
  link_evaluating _ _ := rfl
  link_running _ _ _ := rfl
  bindAt := by
    rintro w s t ⟨rfl, ht⟩ other hother name v hv
    have hne : other ≠ id := fun heq => hid (heq ▸ ht.stack other hother)
    exact ⟨⟨Store.replaceFrame_bindAt hne name v, ht.bindAt other name hv⟩,
      Store.frame_bindAt_of_ne hne.symm⟩
  allocate := by
    rintro w s t ⟨rfl, ht⟩ p _ hp
    exact ⟨w, le_rfl, ⟨rfl, ht.allocate hp⟩, ht.newProc _ (Nat.le_refl _), rfl⟩
  print := by
    rintro w s t ⟨rfl, ht⟩ text
    exact ⟨⟨rfl, ⟨ht.newFrame, ht.newProc, ht.stack, ht.values, ht.code⟩⟩, rfl⟩
  log := by
    rintro w s t ⟨rfl, ht⟩ logger severity message
    exact ⟨⟨rfl, ⟨ht.newFrame, ht.newProc, ht.stack, ht.values, ht.code⟩⟩, rfl⟩
  enter := by
    rintro w s t ⟨rfl, ht⟩ frame c hframe _ hc
    have hlt : id < t.frames.size := Nat.not_le.mp fun hle => hid (ht.newFrame id hle)
    exact ⟨⟨Store.replaceFrame_enter hlt frame c, ht.enter hframe hc⟩,
      Store.frame_enter_of_ne (Nat.ne_of_lt hlt)⟩
  leave := by
    rintro w s t ⟨rfl, ht⟩ frame c hc w' s' t' _ ⟨rfl, ht'⟩ _ hscopes
    have hleave : t.SameScopes t'.leave := hscopes.leave
    refine ⟨⟨Store.replaceFrame_leave, ht'.leave ?_⟩, ?_⟩
    · rw [hleave.stack]
      exact ht.stack
    · unfold Store.leave
      split <;> rfl

namespace Sealed

variable {frames : FrameId → Prop} {procs : ProcId → Prop} {s : Store} {id : FrameId} {e : Value}

theorem follows (hs : Sealed frames procs s) (hid : ¬ frames id) (he : e.Within procs)
    (host : Host) (depth : Nat) (bindings : Frame) :
    Follows (W := Unit) (fun _ s t => s = t.replaceFrame id bindings ∧ Sealed frames procs t)
      (fun s m => m.store.frame id = s.frame id) (Holding fun _ => procs) ()
      (Run.eval host depth e) (Traced.eval host depth e) (s.replaceFrame id bindings) s :=
  (Simulation.replaceFrame hid bindings).simulates_eval host depth () e he _ s ⟨rfl, hs⟩

/-- What a frame out of reach binds makes no difference to a run. -/
theorem eval_replaceFrame (hs : Sealed frames procs s) (hid : ¬ frames id) (he : e.Within procs)
    (host : Host) (depth : Nat) (bindings : Frame) :
    Run.eval host depth e (s.replaceFrame id bindings) =
      Result.mapStore (·.replaceFrame id bindings) (Run.eval host depth e s) := by
  have agree := (hs.follows hid he host depth bindings).agree
  rw [Traced.eval_snd] at agree
  generalize Run.eval host depth e (s.replaceFrame id bindings) = r at agree ⊢
  generalize Run.eval host depth e s = r' at agree ⊢
  cases agree with
  | ok _ _ hst => rw [hst.1, Result.mapStore]
  | error _ hst => rw [hst.1, Result.mapStore]

/-- A run never writes a frame out of reach. -/
theorem frame_moments (hs : Sealed frames procs s) (hid : ¬ frames id) (he : e.Within procs)
    (host : Host) (depth : Nat) :
    (∀ m ∈ (Traced.eval host depth e s).1, m.store.frame id = s.frame id) ∧
      (Result.store (Run.eval host depth e s)).frame id = s.frame id := by
  have linked := (hs.follows hid he host depth []).linked
  rw [Traced.eval_snd] at linked
  exact linked.forall_mem (P := fun t => t.frame id = s.frame id) (fun hlink h => hlink.trans h) rfl

end Sealed

/-- The frame rule. A frame that is not within reach of an expression is never written while the
expression is evaluated, and whatever else it might bind, the run goes the same way: the value or
the failure is the same, and so is all of the store but that frame. -/
theorem frame_rule (host : Host) (depth : Nat) (s : Store) (e : Value) (id : FrameId)
    (hid : id < s.frames.size) (hreach : ¬ Reachable Code.bodies s e id) (bindings : Frame) :
    Run.eval host depth e (s.replaceFrame id bindings) =
      Result.mapStore (·.replaceFrame id bindings) (Run.eval host depth e s) ∧
    (Result.store (Run.eval host depth e s)).frame id = s.frame id ∧
    (∀ m ∈ (Traced.eval host depth e s).1, m.store.frame id = s.frame id) ∧
    (∀ m ∈ (Traced.eval host depth e (s.replaceFrame id bindings)).1,
      m.store.frame id = bindings) ∧
    ∀ t, (Traced.eval host depth e t).2 = Run.eval host depth e t := by
  have hs := Sealed.of_reach s e
  have hout : ¬ (Reachable Code.bodies s e id ∨ s.frames.size ≤ id) := by
    rintro (h | h)
    · exact hreach h
    · exact absurd hid (Nat.not_lt.mpr h)
  have he : e.Within fun p => Held Code.bodies s e p ∨ s.procedures.size ≤ p :=
    fun p hp => .inl (.expression hp)
  obtain ⟨hmoments, hend⟩ := hs.frame_moments hout he host depth
  have hreplaced := (hs.replaceFrame hout bindings).frame_moments hout he host depth
  rw [Store.frame_replaceFrame_self hid] at hreplaced
  exact ⟨hs.eval_replaceFrame hout he host depth bindings, hend, hmoments, hreplaced.1,
    Traced.eval_snd host depth e⟩

namespace FrameRule

/-- A store with two frames that bind the same name, of which one is on the stack. The first
procedure calls the second, which has captured the other frame and stands in the body of the first;
the last procedure has captured the frame on the stack. -/
def twoFrames : Store where
  frames := #[[("n", .num 1)], [("n", .num 2)]]
  procedures := #[.closure true (.fixed []) (.cell (.proc 1) .null) [0],
    .closure true (.fixed []) (.atom "n") [1, 0], .closure true (.fixed []) (.atom "n") [0]]
  stack := [0]
  pending := []
  output := .empty
  journal := .empty

/-- A call without operands. -/
def calling (p : ProcId) : Value := .cell (.proc p) .null

/-- Only the frame on the stack is within reach of a procedure that has captured nothing else and
holds no procedures. -/
theorem not_reachable_one {inside : Code → List Value} {p : ProcId}
    (hcaptures : (twoFrames.procedures.get p).code.captures = [[0]])
    (hinside : ∀ v ∈ inside (twoFrames.procedures.get p).code, v.procs = []) :
    ¬ Reachable inside twoFrames (calling p) 1 := by
  intro h
  have hzero : (1 : FrameId) = 0 := by
    refine Reachable.within (· = 0) (· = p) ?_ ?_ ?_ ?_ ?_ h
    · simp [twoFrames]
    · simp [calling]
    · rintro id rfl name v hget
      have hone : name = "n" ∧ v = .num 1 := by
        simpa [twoFrames, Store.frame, Frame.get?, eq_comm] using hget
      simp [hone.2]
    · rintro q rfl c hc
      rw [hcaptures, List.mem_singleton] at hc
      simp [hc]
    · rintro q rfl v hv
      simp [Value.Within, hinside v hv]
  exact absurd hzero (by decide)

end FrameRule

open FrameRule

/-- A procedure that has captured the frame on the stack only. -/
theorem frame_rule_reader :
    ¬ Reachable Code.bodies twoFrames (calling 2) 1 ∧
    Run.eval .bare 3 (calling 2) (twoFrames.replaceFrame 1 [("n", .num 3)]) =
      Result.mapStore (·.replaceFrame 1 [("n", .num 3)])
        (Run.eval .bare 3 (calling 2) twoFrames) := by
  have hnot : ¬ Reachable Code.bodies twoFrames (calling 2) 1 :=
    not_reachable_one rfl (by simp [twoFrames, Procedures.get, Procedure.closure, Code.bodies,
      Value.procs])
  exact ⟨hnot, (frame_rule .bare 3 twoFrames (calling 2) 1 (by decide) hnot _).1⟩

/-- The rule fails where the bodies of closures do not count: a closure in the body of another one
can still be called. -/
theorem frame_rule_needs_bodies :
    ¬ ∀ (host : Host) (depth : Nat) (s : Store) (e : Value) (id : FrameId), id < s.frames.size →
      ¬ Reachable (fun _ => []) s e id → ∀ bindings : Frame,
        Run.eval host depth e (s.replaceFrame id bindings) =
          Result.mapStore (·.replaceFrame id bindings) (Run.eval host depth e s) := by
  intro h
  have hnot : ¬ Reachable (fun _ => []) twoFrames (calling 0) 1 :=
    not_reachable_one rfl (by simp)
  have heq := h .bare 4 twoFrames (calling 0) 1 (by decide) hnot [("n", .num 3)]
  have hreplaced : ∃ t, Run.eval .bare 4 (calling 0)
      (twoFrames.replaceFrame 1 [("n", .num 3)]) = .ok (.num 3) t := ⟨_, rfl⟩
  have hplain : ∃ t, Run.eval .bare 4 (calling 0) twoFrames = .ok (.num 2) t := ⟨_, rfl⟩
  obtain ⟨t, ht⟩ := hreplaced
  obtain ⟨t', ht'⟩ := hplain
  rw [ht, ht', Result.mapStore] at heq
  exact absurd heq (by simp)

end RationalLisp
