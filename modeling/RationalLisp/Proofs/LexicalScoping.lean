import RationalLisp.Proofs.FrameRule
import RationalLisp.Proofs.Outcomes

/-!
# Lexical scoping

A closure runs on top of the stack that it has captured, so the place of its call makes no
difference to it. Most primitives do not look at the scopes at all. Whatever is composed of such
procedures can be run from any place: it comes to the same end and has the same effects.

## Implementation notes

While the body of a closure runs, two runs from different places differ only in the stacks that have
been put aside, which nothing looks at before the scope is left (`Simulation.calledFrom`).
-/

namespace RationalLisp

/-! ### Places of call -/

/-- The store as it is at another place of call: with another stack, and with other stacks put
aside. -/
def Store.calledFrom (s : Store) (stack : Stack) (pending : List Stack) : Store :=
  { s with stack := stack, pending := pending }

namespace Store

theorem lookupIn_calledFrom (s : Store) (stack : Stack) (pending : List Stack) (name : Text)
    (c : Stack) : (s.calledFrom stack pending).lookupIn name c = s.lookupIn name c :=
  lookupIn_congr (s := s) (t := s.calledFrom stack pending) rfl name c

/-- Two stores that differ in the stacks put aside, after runs that have put their stacks back. -/
theorem SameScopes.eq_calledFrom {s u : Store} {pending pending' : List Stack}
    (hs : (s.calledFrom s.stack pending).SameScopes (u.calledFrom u.stack pending'))
    (hu : s.SameScopes u) : u.calledFrom u.stack pending' = u.calledFrom s.stack pending := by
  have hpending : pending' = pending := hs.pending
  rw [hu.stack, hpending]

/-- Leaving a scope leads back to the place where it was entered. -/
theorem leave_calledFrom (s : Store) (inside stack : Stack) (pending : List Stack) :
    (s.calledFrom inside (stack :: pending)).leave = s.leave.calledFrom stack pending := by
  obtain ⟨_, _, _, aside, _, _⟩ := s
  cases aside <;> rfl

end Store

/-- Two runs that differ in the stacks put aside go on to differ in these only. -/
theorem Simulation.calledFrom : Simulation (W := Unit) (fun _ _ => True) (fun _ _ => True)
    (fun _ s t => ∃ pending, s = t.calledFrom t.stack pending) (fun _ _ => True) where
  allowed_mono _ _ _ := trivial
  base_mono _ _ _ := trivial
  stack_eq := by
    rintro w s t ⟨pending, rfl⟩
    rfl
  procedures_eq := by
    rintro w s t ⟨pending, rfl⟩
    rfl
  lookup_eq := by
    rintro w s t ⟨pending, rfl⟩ name
    exact t.lookupIn_calledFrom t.stack pending name t.stack
  lookup_within _ _ _ _ := fun _ _ => trivial
  code_within h _ _ := ⟨(), le_rfl, h, ⟨fun _ _ _ _ => trivial, fun _ _ => trivial⟩⟩
  link_refl _ := trivial
  link_trans _ _ := trivial
  link_evaluating _ _ := trivial
  link_running _ _ _ := trivial
  bindAt := by
    rintro w s t ⟨pending, rfl⟩ id _ name v _
    exact ⟨⟨pending, rfl⟩, trivial⟩
  allocate := by
    rintro w s t ⟨pending, rfl⟩ p _ _
    exact ⟨w, le_rfl, ⟨pending, rfl⟩, trivial, trivial⟩
  print := by
    rintro w s t ⟨pending, rfl⟩ text
    exact ⟨⟨pending, rfl⟩, trivial⟩
  log := by
    rintro w s t ⟨pending, rfl⟩ logger severity message
    exact ⟨⟨pending, rfl⟩, trivial⟩
  enter := by
    rintro w s t ⟨pending, rfl⟩ frame c _ _ _
    exact ⟨⟨t.stack :: pending, rfl⟩, trivial⟩
  leave := by
    rintro w s t ⟨pending, rfl⟩ frame c _ w' s' t' _ ⟨pending', rfl⟩ hscopes hscopes'
    have hs : pending' = t.stack :: pending := hscopes.pending
    have ht : t'.pending = t.stack :: t.pending := hscopes'.pending
    refine ⟨⟨pending, ?_⟩, trivial⟩
    simp only [Store.leave, Store.calledFrom, hs, ht]

/-- The computation comes to the same end from every place, and has the same effects. -/
def Run.Placeless {α : Type} (m : Run α) : Prop :=
  ∀ (s : Store) (stack : Stack) (pending : List Stack),
    m (s.calledFrom stack pending) = Result.mapStore (·.calledFrom stack pending) (m s)

namespace Run

variable {α β : Type}

theorem placeless_bind {m : Run α} {k : α → Run β} (hm : Placeless m) (hk : ∀ a, Placeless (k a)) :
    Placeless (m >>= k) := by
  intro s stack pending
  have hplace := hm s stack pending
  cases hms : m s with
  | ok a t =>
    rw [hms] at hplace
    rw [bind_of_ok hplace, bind_of_ok hms]
    exact hk a t stack pending
  | error failure t =>
    rw [hms] at hplace
    rw [bind_of_error hplace, bind_of_error hms]
    rfl

theorem placeless_check (arity : Arity) (name : Text) (count : Nat) :
    Placeless (arity.check name count) := by
  intro s stack pending
  cases arity with
  | variadic => rfl
  | exactly n =>
    simp only [Arity.check]
    split <;> rfl

/-- What is settled by the table of procedures is the same at every place. -/
theorem placeless_of_settled {P : Procedures → Outcome → Prop} {m : Run Value}
    (h : ∀ table, Settled table (P table) m) : Placeless m := by
  intro s stack pending
  obtain ⟨o, -, heq⟩ := h s.procedures
  rw [heq s rfl, heq (s.calledFrom stack pending) rfl]
  cases o <;> rfl

/-- Evaluation does not look at the stacks that have been put aside. -/
theorem eval_calledFrom (host : Host) (depth : Nat) (e : Value) (s : Store)
    (pending : List Stack) : eval host depth e (s.calledFrom s.stack pending) =
      Result.mapStore (·.calledFrom s.stack pending) (eval host depth e s) := by
  have hfollows := Simulation.calledFrom.simulates_eval host depth () e (fun _ _ => trivial)
    (s.calledFrom s.stack pending) s ⟨pending, rfl⟩
  obtain ⟨agree, scopes, scopes', -⟩ := hfollows
  rw [Traced.eval_snd] at agree scopes'
  generalize eval host depth e (s.calledFrom s.stack pending) = r at agree scopes ⊢
  generalize eval host depth e s = r' at agree scopes' ⊢
  cases agree with
  | ok _ _ hst =>
    obtain ⟨pending', rfl⟩ := hst
    rw [Result.mapStore, ← scopes.eq_calledFrom scopes']
  | error _ hst =>
    obtain ⟨pending', rfl⟩ := hst
    rw [Result.mapStore, ← scopes.eq_calledFrom scopes']

/-- A scope on top of a given stack is the same at every place. -/
theorem placeless_withScope (host : Host) (depth : Nat) (frame : Frame) (base : Stack)
    (body : Value) : Placeless (withScope frame base (eval host depth body)) := by
  intro s stack pending
  have henter : (s.calledFrom stack pending).enter frame base =
      (s.enter frame base).calledFrom (s.enter frame base).stack (stack :: pending) := rfl
  rw [Simulation.withScope_eq, Simulation.withScope_eq, henter, eval_calledFrom]
  cases eval host depth body (s.enter frame base) with
  | ok a t => exact congrArg (EStateM.Result.ok a) (t.leave_calledFrom _ stack pending)
  | error failure t =>
    exact congrArg (EStateM.Result.error failure) (t.leave_calledFrom _ stack pending)

end Run

/-! ### Procedures -/

/-- Whether the code of a procedure leaves the place of its call alone: closures do, and so do the
primitives that neither evaluate something nor have to do with the scopes, and compositions of such
procedures. -/
def Code.callSiteIndependent : Code → Bool
  | .primitive (.builtin _) => true
  | .primitive (.form f) => !f.usesCallSite
  | .closure .. => true
  | .composition _ _ outer inner => outer.callSiteIndependent && inner.callSiteIndependent
  | .operands => true

theorem Code.placeless_run (host : Host) (depth : Nat) {code : Code}
    (h : code.callSiteIndependent = true) (args : List Value) :
    (code.run host (Run.inner host depth) args).Placeless := by
  induction code generalizing args with
  | primitive p =>
    cases p with
    | builtin b => exact Run.placeless_of_settled fun table => b.settled_run _ args table
    | form f =>
      have hf : f.usesCallSite = false := by simpa [callSiteIndependent] using h
      exact Run.placeless_of_settled fun table => f.settled_run host _ hf args table
  | closure params body captured => exact Run.placeless_withScope host depth _ captured body
  | composition name arity outer inner ihOuter ihInner =>
    obtain ⟨houter, hinner⟩ := Bool.and_eq_true_iff.mp h
    apply Run.placeless_bind (ihInner hinner args)
    intro v
    apply Run.placeless_bind (Run.placeless_check arity name 1)
    intro _
    exact ihOuter houter [v]
  | operands => exact fun _ _ _ => rfl

/-- Scoping is lexical: a procedure that leaves the place of its call alone comes to the same value
or failure from any two places, with the same output and the same frames, and each place has its
stack back. -/
theorem lexical_scoping (host : Host) (depth : Nat) {code : Code}
    (h : code.callSiteIndependent = true) (args : List Value) (s : Store) (stack stack' : Stack)
    (pending pending' : List Stack) :
    let run := code.run host (Run.inner host depth) args
    run (s.calledFrom stack' pending') =
      Result.mapStore (·.calledFrom stack' pending') (run (s.calledFrom stack pending)) ∧
    (s.calledFrom stack pending).SameScopes (Result.store (run (s.calledFrom stack pending))) ∧
    (s.calledFrom stack' pending').SameScopes
      (Result.store (run (s.calledFrom stack' pending'))) := by
  intro run
  have hplaceless : run.Placeless := code.placeless_run host depth h args
  have hscopes : ∀ s : Store, s.SameScopes (Result.store (run s)) :=
    Simulation.sameScopes_of_identity (Simulation.identity.simulates_code host depth
      (Simulation.identity.simulates_eval host depth)
      ⟨fun _ _ _ _ => trivial, fun _ _ => trivial⟩ fun _ _ _ _ => trivial)
  exact ⟨hplaceless (s.calledFrom stack pending) stack' pending', hscopes _, hscopes _⟩

open FrameRule in
/-- Called from a scope that shadows `n`, a composition with a closure that looks `n` up still finds
the `n` of the closure's own scope. -/
theorem lexical_scoping_shadowed :
    let code := ((Procedure.ofPrimitive (.builtin .numerator)).compose
      (twoFrames.procedures.get 2)).code
    let run := code.run .bare (Run.inner .bare 1) []
    code.callSiteIndependent = true ∧
    twoFrames.lookupIn "n" [1, 0] = some (.num 2) ∧
    (∃ t, run (twoFrames.calledFrom [0] []) = .ok (.num 1) t) ∧
    ∃ t, run (twoFrames.calledFrom [1, 0] [[0]]) = .ok (.num 1) t := by
  intro code run
  have hcode : code.callSiteIndependent = true := by decide
  have hglobal : ∃ t, run (twoFrames.calledFrom [0] []) = .ok (.num 1) t := ⟨_, rfl⟩
  refine ⟨hcode, rfl, hglobal, ?_⟩
  obtain ⟨t, ht⟩ := hglobal
  have heq := (lexical_scoping .bare 1 hcode [] twoFrames [0] [1, 0] [] [[0]]).1
  exact ⟨_, heq.trans (congrArg _ ht)⟩

end RationalLisp
