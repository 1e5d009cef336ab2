import RationalLisp.Proofs.Histories
import Mathlib.Data.Set.Basic
import Mathlib.Logic.Relation

/-!
# Changes of the store

A run changes the store step by step: it binds names, makes procedures, prints, logs, enters scopes
and leaves them. Scopes are entered only on stacks that a closure has captured, and a procedure
captures only the present stack or what has been captured before. Every moment of a session comes
from the moment before it by such changes, so what they keep holds throughout the session.
-/

namespace RationalLisp

namespace Store

/-- The stacks that closures have captured. -/
def captures (s : Store) : List Stack := s.procedures.toList.flatMap fun p => p.code.captures

@[simp] theorem captures_bindAt (s : Store) (id : FrameId) (name : Text) (v : Value) :
    (s.bindAt id name v).captures = s.captures := rfl

@[simp] theorem captures_enter (s : Store) (frame : Frame) (c : Stack) :
    (s.enter frame c).captures = s.captures := rfl

@[simp] theorem captures_leave (s : Store) : s.leave.captures = s.captures := by
  unfold leave
  split <;> rfl

@[simp] theorem captures_allocate (s : Store) (p : Procedure) :
    (s.allocate p).captures = s.captures ++ p.code.captures := by
  simp [captures, allocate]

/-- What the procedure of an identifier has captured is among what has been captured. -/
theorem mem_captures_of_get {s : Store} {id : ProcId} {c : Stack}
    (h : c ∈ (s.procedures.get id).code.captures) : c ∈ s.captures := by
  unfold Procedures.get at h
  by_cases hid : id < s.procedures.size
  · have hmem : s.procedures[id] ∈ s.procedures.toList := by simp
    refine List.mem_flatMap.mpr ⟨_, hmem, ?_⟩
    simpa [Array.getD, hid] using h
  · -- beyond the table stands the procedure that lists its operands
    simp [Array.getD, hid] at h
    exact absurd h List.not_mem_nil

@[simp] theorem size_bindAt (s : Store) (id : FrameId) (name : Text) (v : Value) :
    (s.bindAt id name v).frames.size = s.frames.size := by
  simp [bindAt]

@[simp] theorem size_enter (s : Store) (frame : Frame) (c : Stack) :
    (s.enter frame c).frames.size = s.frames.size + 1 := by
  simp [enter]

@[simp] theorem size_leave (s : Store) : s.leave.frames.size = s.frames.size := by
  unfold leave
  split <;> rfl

/-- A single change of the store. -/
inductive Change : Store → Store → Prop
  | bindAt (s : Store) (id : FrameId) (name : Text) (v : Value) : Change s (s.bindAt id name v)
  | allocate (s : Store) (p : Procedure)
      (h : ∀ c ∈ p.code.captures, c ∈ s.captures ∨ c = s.stack) : Change s (s.allocate p)
  | write (s : Store) (output : Tape) (journal : Journal) :
      Change s { s with output := output, journal := journal }
  | enter (s : Store) (frame : Frame) {c : Stack} (h : c ∈ s.captures) :
      Change s (s.enter frame c)
  | leave (s : Store) : Change s s.leave

/-- Any number of changes. -/
abbrev Changes : Store → Store → Prop := Relation.ReflTransGen Change

/-- Frames are never taken away. -/
theorem Changes.size_le {s t : Store} (h : Changes s t) : s.frames.size ≤ t.frames.size := by
  induction h with
  | refl => exact le_rfl
  | tail _ hchange ih =>
    refine ih.trans ?_
    cases hchange <;> simp [Store.allocate]

end Store

open Store

/-- A moment comes from a store by changes, and a scope that has been entered was entered last. -/
structure ChangesTo (s : Store) (m : Moment) : Prop where
  changes : Changes s m.store
  entered : m.event = .entered → ∃ u frame c, Changes s u ∧ m.store = u.enter frame c

theorem ChangesTo.trans {s t : Store} {m : Moment} (h : Changes s t) (h' : ChangesTo t m) :
    ChangesTo s m := by
  refine ⟨h.trans h'.changes, fun he => ?_⟩
  obtain ⟨u, frame, c, hu, hm⟩ := h'.entered he
  exact ⟨u, frame, c, h.trans hu, hm⟩

theorem ChangesTo.acted {s t : Store} (h : Changes s t) : ChangesTo s ⟨.acted, t⟩ :=
  ⟨h, fun he => nomatch he⟩

theorem ChangesTo.single {s t : Store} (h : Change s t) : ChangesTo s ⟨.acted, t⟩ :=
  .acted (.single h)

/-- Runs go by changes. A world is a set of stacks that have been captured. -/
theorem Simulation.changes : Simulation (W := Set Stack) (fun _ _ => True) (fun w c => c ∈ w)
    (fun w s t => s = t ∧ ∀ c ∈ w, c ∈ s.captures) ChangesTo where
  allowed_mono _ _ _ := trivial
  base_mono hw c hc := hw hc
  stack_eq h := by rw [h.1]
  procedures_eq h := by rw [h.1]
  lookup_eq h _ := by rw [h.1]
  lookup_within _ _ _ _ := fun _ _ => trivial
  code_within := by
    intro w s t hst id _
    refine ⟨w ∪ {c | c ∈ (s.procedures.get id).code.captures}, Set.subset_union_left,
      ⟨hst.1, ?_⟩, ⟨fun _ _ _ _ => trivial, fun c hc => Set.mem_union_right w hc⟩⟩
    rintro c (hc | hc)
    · exact hst.2 c hc
    · exact mem_captures_of_get hc
  link_refl _ := .acted .refl
  link_trans h h' := h'.trans h.changes
  link_evaluating _ _ := ⟨.refl, fun he => nomatch he⟩
  link_running _ _ _ := ⟨.refl, fun he => nomatch he⟩
  bindAt := by
    rintro w s t ⟨rfl, hw⟩ id _ name v _
    exact ⟨⟨rfl, hw⟩, .single (.bindAt s id name v)⟩
  allocate := by
    rintro w s t ⟨rfl, hw⟩ p _ hp
    refine ⟨w, le_rfl, ⟨rfl, fun c hc => ?_⟩, trivial, .single (.allocate s p ?_)⟩
    · rw [captures_allocate]
      exact List.mem_append_left _ (hw c hc)
    · intro c hc
      exact (hp.captures c hc).imp_left (hw c)
  print := by
    rintro w s t ⟨rfl, hw⟩ text
    exact ⟨⟨rfl, hw⟩, .single (.write s _ _)⟩
  log := by
    rintro w s t ⟨rfl, hw⟩ logger severity message
    exact ⟨⟨rfl, hw⟩, .single (.write s _ _)⟩
  enter := by
    rintro w s t ⟨rfl, hw⟩ frame c _ _ hc
    have hchange : Change s (s.enter frame c) := .enter s frame (hw c hc)
    exact ⟨⟨rfl, hw⟩, .single hchange, fun _ => ⟨s, frame, c, .refl, rfl⟩⟩
  leave := by
    rintro w s t _ frame c _ w' s' t' _ ⟨rfl, hw⟩ _ _
    exact ⟨⟨rfl, by simpa using hw⟩, .single (.leave s')⟩

/-! ### Sessions -/

/-- A session begins with its global frame, and each moment comes from the one before it by
changes. -/
theorem Session.history_linked (host : Host) (prelude : Bool) (journal : Journal)
    (steps : List (Host × Step)) :
    ∃ t, Linked ChangesTo ((Store.initial journal).push [])
      (history host prelude journal steps) t := by
  obtain ⟨s, hs, hchanges⟩ := Run.register_ok
    (P := Changes ((Store.initial journal).push []))
    (fun s id name v h => h.tail (.bindAt s id name v))
    (fun s p h => h.tail (.allocate s _ (by simp [Procedure.ofPrimitive, Code.captures]))) .refl
  exact Simulation.changes.linked_history (I := fun _ => True) (fun _ => ∅)
    (fun _ _ => trivial) (fun s _ => ⟨rfl, by simp⟩) (fun _ => trivial) host prelude hs trivial
    (.acted hchanges) (given_of_forall (fun _ _ => trivial) steps _)

end RationalLisp
