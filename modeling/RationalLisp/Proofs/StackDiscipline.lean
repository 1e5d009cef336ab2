import RationalLisp.Proofs.EvalSimulation

/-!
# Stack discipline

Whatever is evaluated, and however it ends, the stack of frames is afterwards what it was before.
A session therefore has its global frame and nothing else on the stack between any two steps.
-/

namespace RationalLisp

namespace Simulation

variable {W : Type} [Preorder W] {allowed : W → ProcId → Prop} {base : W → Stack → Prop}
variable {R : W → Store → Store → Prop} {Link : Store → Moment → Prop} {w : W}

/-! ### Steps of a session -/

theorem acts_primitive (sim : Simulation allowed base R Link)
    (hforms : ∀ w f, allowed w (Store.formId f)) (p : Primitive) :
    Acts R Link (Holding allowed) w (Run.primitive p) := by
  cases p with
  | form f => exact sim.acts_pure ((Value.within_proc _).mpr (hforms w f))
  | builtin b => exact sim.acts_makePrimitive (.builtin b)

theorem simulates_evalText (sim : Simulation allowed base R Link) (host : Host) (source : Text) :
    Simulates R Link (Holding allowed) w (Session.evalText host source)
      (Traced.program (Traced.eval host host.depth) (.ofText host.depth source)) :=
  sim.simulates_program (sim.simulates_eval host host.depth)
    fun e he w => Program.within_ofText (allowed w) host.depth source e he

/-- A step of a session follows its traced counterpart, if its expression holds only procedures
that are allowed. -/
theorem simulates_step (sim : Simulation allowed base R Link)
    (hforms : ∀ w f, allowed w (Store.formId f)) (host : Host) (step : Session.Step)
    (hstep : ∀ e, step = .evaluate e → e.Within (allowed w)) :
    Simulates R Link (Holding allowed) w (step.run host) (step.traced host) := by
  cases step with
  | evaluate e => exact sim.simulates_eval host host.depth w e (hstep e rfl)
  | text source => exact sim.simulates_evalText host source
  | file path =>
    apply sim.simulates_bind (sim.simulates_ofExcept _)
    intro w' _ source _
    exact sim.simulates_evalText host source
  | primitive p => exact sim.simulates_act (sim.acts_primitive hforms p)

theorem simulates_prelude (sim : Simulation allowed base R Link) (host : Host) :
    Simulates R Link anything w (Session.runPrelude host) (Session.tracedPrelude host) := by
  apply sim.simulates_bind (sim.simulates_ofExcept _)
  intro w₁ _ root _
  apply sim.simulates_bind (sim.simulates_ofExcept _)
  intro w₂ _ isThere _
  cases isThere with
  | true =>
    apply sim.simulates_bind (sim.simulates_act (sim.acts_log _ _ _))
    intro w₃ _ _ _
    apply sim.simulates_bind
      (sim.simulates_source host host.depth (sim.simulates_eval host host.depth) _)
    intro w₄ _ _ _
    exact sim.simulates_pure trivial
  | false => exact sim.simulates_act (sim.acts_throw _)

theorem simulates_loadPrelude (sim : Simulation allowed base R Link) (host : Host) :
    Simulates R Link anything w (Session.loadPrelude host) (Session.tracedLoadPrelude host) :=
  sim.simulates_orIfMissing (sim.simulates_prelude host) fun _ _ =>
    sim.simulates_act (sim.acts_log _ _ _)

theorem simulates_opening (sim : Simulation allowed base R Link) (host : Host) (prelude : Bool) :
    Simulates R Link anything w (Session.opening host prelude)
      (Session.tracedOpening host prelude) := by
  unfold Session.opening Session.tracedOpening
  by_cases hlimit : Host.greatestRecursionLimit < host.recursionLimit
  · simp only [if_pos hlimit]
    exact sim.simulates_act (sim.acts_throw _)
  · simp only [if_neg hlimit]
    cases prelude with
    | true => exact sim.simulates_loadPrelude host
    | false => exact sim.simulates_pure trivial

end Simulation

/-! ### Registration -/

namespace Run

/-- Binding primitives succeeds, and keeps what new primitives keep and bindings of forms and of
procedures that are there. -/
theorem bindPrimitives_keeps {P : Store → Prop}
    (hbind : ∀ s id name q, (q < s.procedures.size ∨ ∃ f, q = Store.formId f) → P s →
      P (s.bindAt id name (.proc q)))
    (hmake : ∀ s p, P s → P (s.allocate (.ofPrimitive p))) (id : FrameId) (ps : List Primitive)
    {s : Store} (hs : P s) : ∃ t, bindPrimitives id ps s = .ok () t ∧ P t := by
  induction ps generalizing s with
  | nil => exact ⟨s, rfl, hs⟩
  | cons p ps ih =>
    cases p with
    | form f =>
      exact ih (hbind s id (Primitive.form f).name (Store.formId f) (.inr ⟨f, rfl⟩) hs)
    | builtin b =>
      have hthere : s.procedures.size <
          (s.allocate (.ofPrimitive (.builtin b))).procedures.size := by
        simp [Store.allocate]
      exact ih (hbind _ id (Primitive.builtin b).name s.procedures.size (.inl hthere)
        (hmake s (.builtin b) hs))

/-- The first registration of primitives makes the global frame and binds them in it. -/
theorem bindOutermost_initial (ps : List Primitive) (journal : Journal) :
    (do
      if (← get).stack = [] then push []
      let id ← outermost
      bindPrimitives id ps : Run Unit) (.initial journal) =
      bindPrimitives 0 ps ((Store.initial journal).push []) := rfl

theorem register_initial (journal : Journal) :
    register (.initial journal) =
      bindPrimitives 0 Primitive.all ((Store.initial journal).push []) :=
  -- for a list that is not known the two sides agree without being computed
  bindOutermost_initial Primitive.all journal

/-- The first registration of primitives succeeds, and keeps what new primitives keep and bindings
of forms and of procedures that are there. -/
theorem register_keeps {P : Store → Prop}
    (hbind : ∀ s id name q, (q < s.procedures.size ∨ ∃ f, q = Store.formId f) → P s →
      P (s.bindAt id name (.proc q)))
    (hmake : ∀ s p, P s → P (s.allocate (.ofPrimitive p))) {journal : Journal}
    (hs : P ((Store.initial journal).push [])) :
    ∃ t, register (.initial journal) = .ok () t ∧ P t := by
  obtain ⟨t, ht, hP⟩ := bindPrimitives_keeps hbind hmake 0 Primitive.all hs
  exact ⟨t, (register_initial journal).trans ht, hP⟩

theorem register_ok {P : Store → Prop} (hbind : ∀ s id name v, P s → P (s.bindAt id name v))
    (hmake : ∀ s p, P s → P (s.allocate (.ofPrimitive p))) {journal : Journal}
    (hs : P ((Store.initial journal).push [])) :
    ∃ t, register (.initial journal) = .ok () t ∧ P t :=
  register_keeps (fun s id name q _ => hbind s id name (.proc q)) hmake hs

end Run

/-! ### Leaving the moments out -/

/-- The simulation of a run by itself. -/
theorem Simulation.identity : Simulation (W := Unit) (fun _ _ => True) (fun _ _ => True)
    (fun _ s t => s = t) (fun _ _ => True) where
  allowed_mono _ _ _ := trivial
  base_mono _ _ _ := trivial
  stack_eq h := by rw [h]
  procedures_eq h := by rw [h]
  lookup_eq h _ := by rw [h]
  lookup_within _ _ _ _ := fun _ _ => trivial
  code_within h _ _ := ⟨(), le_rfl, h, ⟨fun _ _ _ _ => trivial, fun _ _ => trivial⟩⟩
  link_refl _ := trivial
  link_trans _ _ := trivial
  link_evaluating _ _ := trivial
  link_running _ _ _ := trivial
  bindAt h _ _ _ _ _ := ⟨by rw [h], trivial⟩
  allocate h _ _ _ := ⟨(), le_rfl, by rw [h], trivial, trivial⟩
  print h _ := ⟨by rw [h], trivial⟩
  log h _ _ _ := ⟨by rw [h], trivial⟩
  enter h _ _ _ _ _ := ⟨by rw [h], trivial⟩
  leave _ _ _ _ _ _ _ _ h _ _ := ⟨by rw [h], trivial⟩

namespace Simulation

variable {α : Type} {ok : Unit → α → Prop} {m : Run α} {n : Traced α}

/-- A computation that follows a traced one under the identity is that computation without its
moments. -/
theorem snd_eq_of_identity
    (h : Simulates (fun _ s t => s = t) (fun _ _ => True) ok () m n) (s : Store) :
    (n s).2 = m s := by
  have agree := (h s s rfl).agree
  generalize m s = r at agree
  generalize (n s).2 = r' at agree
  cases agree with
  | ok _ _ hst => rw [hst]
  | error _ hst => rw [hst]

theorem sameScopes_of_identity
    (h : Simulates (fun _ s t => s = t) (fun _ _ => True) ok () m n) (s : Store) :
    s.SameScopes (Result.store (m s)) := (h s s rfl).scopes

end Simulation

open Simulation

theorem Traced.eval_snd (host : Host) (depth : Nat) (e : Value) (s : Store) :
    (Traced.eval host depth e s).2 = Run.eval host depth e s :=
  snd_eq_of_identity (identity.simulates_eval host depth () e fun _ _ => trivial) s

namespace Session

theorem Step.traced_snd (host : Host) (step : Step) (s : Store) :
    (step.traced host s).2 = step.run host s :=
  snd_eq_of_identity
    (identity.simulates_step (fun _ _ => trivial) host step fun _ _ _ _ => trivial) s

theorem Step.sameScopes (host : Host) (step : Step) (s : Store) :
    s.SameScopes (Result.store (step.run host s)) :=
  sameScopes_of_identity
    (identity.simulates_step (fun _ _ => trivial) host step fun _ _ _ _ => trivial) s

theorem after_sameScopes (steps : List (Host × Step)) (s : Store) :
    s.SameScopes (after steps s) := by
  induction steps generalizing s with
  | nil => exact .refl s
  | cons step steps ih => exact (step.2.sameScopes step.1 s).trans (ih _)

theorem start_of_register {host : Host} {prelude : Bool} {s t : Store}
    (h : Run.register s = .ok () t) : start host prelude s = opening host prelude t := by
  rw [start_eq]
  exact Run.bind_of_ok h

/-- A session starts with the global frame as its stack, even if the prelude fails. -/
theorem start_stack (host : Host) (prelude : Bool) (journal : Journal) :
    (Result.store (start host prelude (.initial journal))).stack = [0] := by
  -- the frames and procedures change while the primitives are bound, the scopes do not
  obtain ⟨s, hs, hscopes⟩ := Run.register_ok
    (P := ((Store.initial journal).push []).SameScopes) (fun _ _ _ _ h => ⟨h.1, h.2⟩)
    (fun _ _ h => ⟨h.1, h.2⟩) (.refl _)
  have hopening := sameScopes_of_identity (identity.simulates_opening host prelude) s
  rw [start_of_register hs, hopening.stack, hscopes.stack]
  rfl

end Session

/-- Evaluation, programs, application, loading and the steps of a session put the stack back, in
every store and whatever the ending is. Between its steps a session has one frame on its stack. -/
theorem stack_discipline (host : Host) (depth : Nat) :
    (∀ (e : Value) (s : Store), s.SameScopes (Result.store (Run.eval host depth e s))) ∧
    (∀ (p : Program) (s : Store),
      s.SameScopes (Result.store (Run.program (Run.eval host depth) p s))) ∧
    (∀ (f : Value) (operands : List Value) (s : Store),
      s.SameScopes (Result.store (Run.apply host (Run.inner host depth) f operands s))) ∧
    (∀ (path : Text) (s : Store),
      s.SameScopes (Result.store (Run.load host (Run.inner host depth) path s))) ∧
    (∀ (step : Session.Step) (s : Store), s.SameScopes (Result.store (step.run host s))) ∧
    ∀ (prelude : Bool) (journal : Journal) (steps : List (Host × Session.Step)),
      (Session.after steps
        (Result.store (Session.start host prelude (.initial journal)))).stack.length = 1 := by
  have heval := identity.simulates_eval host depth
  refine ⟨?_, ?_, ?_, ?_, ?_, ?_⟩
  · intro e s
    exact sameScopes_of_identity (heval () e fun _ _ => trivial) s
  · intro p s
    exact sameScopes_of_identity (identity.simulates_program heval fun _ _ _ _ _ => trivial) s
  · intro f operands s
    exact sameScopes_of_identity (identity.simulates_apply host depth heval (fun _ _ => trivial)
      fun _ _ _ _ => trivial) s
  · intro path s
    exact sameScopes_of_identity (identity.simulates_load host depth heval path) s
  · intro step s
    exact step.sameScopes host s
  · intro prelude journal steps
    rw [(Session.after_sameScopes steps _).stack, Session.start_stack]
    rfl

end RationalLisp
