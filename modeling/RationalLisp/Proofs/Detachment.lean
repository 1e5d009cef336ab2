import RationalLisp.Proofs.BigSteps
import RationalLisp.Proofs.Growth
import RationalLisp.Proofs.LexicalScoping
import RationalLisp.Proofs.ScopeTree

/-!
# Detached computations

A computation that leaves the place of its call alone, and puts back what it finds there, does the
same inside a scope as outside, but for the frame that the scope adds. The code of closures, of most
primitives and of compositions of such is like that. It does not come by frames that no closure has
captured, so the frame of a scope from which it is called is safe from it.
-/

namespace RationalLisp

open Simulation

namespace Store

/-- The store with one more frame, which is on no stack. -/
def addFrame (s : Store) (frame : Frame) : Store := { s with frames := s.frames.push frame }

/-- Inside a scope, the store is the one with the frame of the scope, at another place. -/
theorem enter_eq (s : Store) (frame : Frame) (base : Stack) :
    s.enter frame base =
      (s.addFrame frame).calledFrom (s.frames.size :: base) (s.stack :: s.pending) := rfl

theorem SameScopes.calledFrom_eq {s t : Store} (h : s.SameScopes t) :
    t.calledFrom s.stack s.pending = t := by
  rw [← h.stack, ← h.pending]
  rfl

end Store

namespace Run

/-- Add a frame that is on no stack. -/
def addFrame (frame : Frame) : Run Unit := modify (·.addFrame frame)

/-- A computation that comes to the same end from every place, with the same effects, and that puts
back the stack. -/
structure Detached {α : Type} (m : Run α) : Prop where
  placeless : Placeless m
  scopes : ∀ s : Store, s.SameScopes (Result.store (m s))

section Detached

variable {α β : Type} {m : Run α} {k : α → Run β}

theorem detached_pure (a : α) : Detached (pure a : Run α) := ⟨fun _ _ _ => rfl, .refl⟩

theorem detached_addFrame (frame : Frame) : Detached (addFrame frame) :=
  ⟨fun _ _ _ => rfl, fun _ => ⟨rfl, rfl⟩⟩

theorem detached_bind (hm : Detached m) (hk : ∀ a, Detached (k a)) : Detached (m >>= k) := by
  refine ⟨placeless_bind hm.placeless fun a => (hk a).placeless, fun s => ?_⟩
  have hfirst := hm.scopes s
  cases hms : m s with
  | ok a t =>
    rw [hms] at hfirst
    rw [bind_of_ok hms]
    exact hfirst.trans ((hk a).scopes t)
  | error failure t =>
    rw [hms] at hfirst
    rwa [bind_of_error hms]

theorem detached_code (host : Host) (depth : Nat) {code : Code}
    (h : code.callSiteIndependent = true) (args : List Value) :
    Detached (code.run host (inner host depth) args) where
  placeless := code.placeless_run host depth h args
  scopes := sameScopes_of_identity (identity.simulates_code host depth
    (identity.simulates_eval host depth) ⟨fun _ _ _ _ => trivial, fun _ _ => trivial⟩
    fun _ _ _ _ => trivial)

/-- Inside a scope and outside, a detached computation comes to the same. All that is left of the
scope is its frame. -/
theorem Detached.withScope_eq (h : Detached m) (frame : Frame) (base : Stack) (s : Store) :
    withScope frame base m s = m (s.addFrame frame) := by
  have hscopes := h.scopes (s.addFrame frame)
  rw [Simulation.withScope_eq, s.enter_eq, h.placeless]
  cases hm : m (s.addFrame frame) with
  | ok a t =>
    rw [hm] at hscopes
    exact congrArg (EStateM.Result.ok a) hscopes.calledFrom_eq
  | error failure t =>
    rw [hm] at hscopes
    exact congrArg (EStateM.Result.error failure) hscopes.calledFrom_eq

end Detached

/-- The endings of a computation at another place. -/
theorem Ends.calledFrom {α : Type} {m : Nat → Run α} {s : Store} {r : Result α}
    (hm : ∀ depth, Placeless (m depth)) (h : Ends m s r) (stack : Stack) (pending : List Stack) :
    Ends m (s.calledFrom stack pending) (Result.mapStore (·.calledFrom stack pending) r) := by
  obtain ⟨least, h⟩ := h
  refine ⟨least, fun depth hdepth => ?_⟩
  rw [hm depth, h depth hdepth]

/-! ### What the code of a procedure does to the store -/

section Code

variable (host : Host) (depth : Nat) (args : List Value)

theorem grows_code (code : Code) (s : Store) :
    s.Grows (Result.store (code.run host (inner host depth) args s)) :=
  grows_of_simulates (growth.simulates_code host depth (growth.simulates_eval host depth)
    ⟨fun _ _ _ _ => trivial, fun _ _ => trivial⟩ fun _ _ _ _ => trivial) s

theorem changes_code (s : Store) (id : ProcId) :
    s.Changes (Result.store ((s.procedures.get id).code.run host (inner host depth) args s)) := by
  have hsimulates : Simulates _ _ _ {c | c ∈ (s.procedures.get id).code.captures}
      ((s.procedures.get id).code.run host (inner host depth) args) _ :=
    changes.simulates_code host depth (changes.simulates_eval host depth)
      ⟨fun _ _ _ _ => trivial, fun c hc => hc⟩ fun _ _ _ _ => trivial
  have hfollows := hsimulates s s ⟨rfl, fun c hc => Store.mem_captures_of_get hc⟩
  obtain ⟨_, hstore, -⟩ := hfollows.agree.store
  have hend := (hfollows.linked.forall_mem (P := s.Changes)
    (fun hlink h => h.trans hlink.changes) .refl).2
  rwa [← hstore] at hend

/-- A frame that no closure has captured stays as it is. -/
theorem frame_code (s : Store) (id : ProcId)
    (h : (s.procedures.get id).code.callSiteIndependent = true)
    {frame : FrameId} (hframe : frame < s.frames.size) (hfresh : ∀ c ∈ s.captures, frame ∉ c) :
    (Result.store ((s.procedures.get id).code.run host (inner host depth) args s)).frame frame =
      s.frame frame := by
  -- the frame may be on the stack, so the code is run from a place with an empty one
  have hsealed : Sealed (· ≠ frame) (fun _ => True) (s.calledFrom [] []) := by
    refine ⟨fun other hother heq => ?_, fun _ _ => trivial, fun _ hmem => (nomatch hmem),
      fun _ _ _ _ _ _ _ => trivial, fun p _ => ⟨fun _ _ _ _ => trivial, ?_⟩⟩
    · exact absurd hframe (Nat.not_lt.mpr (heq ▸ hother))
    · intro c hc other hother heq
      exact hfresh c (Store.mem_captures_of_get hc) (heq ▸ hother)
  have hsim := @Simulation.replaceFrame (· ≠ frame) (fun _ => True) frame (fun hne => hne rfl) []
  have hsimulates : Simulates _ _ _ () ((s.procedures.get id).code.run host (inner host depth) args)
      _ := hsim.simulates_code host depth (hsim.simulates_eval host depth) (hsealed.code id trivial)
    fun _ _ _ _ => trivial
  have hlinked := (hsimulates _ _ ⟨rfl, hsealed⟩).linked
  rw [snd_eq_of_identity (identity.simulates_code host depth (identity.simulates_eval host depth)
    ⟨fun _ _ _ _ => trivial, fun _ _ => trivial⟩ fun _ _ _ _ => trivial)] at hlinked
  have hend : (Result.store ((s.procedures.get id).code.run host (inner host depth) args
      (s.calledFrom [] []))).frame frame = s.frame frame :=
    (hlinked.forall_mem (P := fun t => t.frame frame = s.frame frame)
      (fun hlink h => hlink.trans h) rfl).2
  rw [(detached_code host depth h args).placeless, Result.store_mapStore] at hend
  exact hend

end Code

end Run

end RationalLisp
