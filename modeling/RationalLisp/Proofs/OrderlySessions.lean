import RationalLisp.Proofs.OrderlyRuns

/-!
# Orderly sessions

A session begins in an orderly store, so all of it is orderly. Two results follow for every session,
whatever is evaluated or loaded in it.

The global frame stays outermost, on the stack and in every stack that is captured. So there is
always a frame to bind a name in, and a frame below it exactly while a closure is running.

A procedure's code runs on as many operands as the procedure takes, whichever way it is reached.
So closures bind all their parameters to all their operands, and the primitives, which refuse any
other number of operands without a reason, never come to do so.
-/

namespace RationalLisp

open Result Traced

/-! ### All of a session -/

theorem Run.register_orderly (journal : Journal) :
    ∃ s, register (.initial journal) = .ok () s ∧ s.Orderly :=
  register_ok (fun _ id name v h => h.bindAt id name v)
    (fun _ p h => h.allocate (Procedures.admits_primitive p)) (.initial journal)

namespace Session

variable {s : Store}

theorem Step.behaves (host : Host) (step : Step) (hs : s.Orderly) :
    Behaves (fun _ => True) (step.traced host) s := by
  have heval := evaluatesWell_eval host host.depth
  cases step with
  | evaluate e => exact heval e s hs
  | text source => exact behaves_program heval _ hs
  | file path =>
    apply behaves_bind (behaves_ofExcept hs (host.failsAsExpected_readSource _))
    intro source t ht _ _
    exact behaves_program heval _ ht
  | primitive p =>
    cases p with
    | form f => exact behaves_act (endsWell_pure hs trivial)
    | builtin b => exact behaves_act (endsWell_make hs (Procedures.admits_primitive _))

theorem Step.endsWell (host : Host) (step : Step) (hs : s.Orderly) :
    EndsWell s (fun _ => True) (step.run host s) := by
  rw [← step.traced_snd host s]
  exact (step.behaves host hs).ending

theorem behaves_tracedPrelude (host : Host) (hs : s.Orderly) :
    Behaves (fun _ => True) (tracedPrelude host) s := by
  apply behaves_bind (behaves_ofExcept hs host.failsAsExpected_preludeRoot)
  intro root t ht _ _
  apply behaves_bind (behaves_ofExcept ht (Host.failsAsExpected_leadsTo _ host _))
  intro isThere u hu _ _
  cases isThere with
  | true =>
    apply behaves_bind (behaves_act (endsWell_log hu _ _ _))
    intro _ v hv _ _
    apply behaves_bind (behaves_source host (evaluatesWell_eval host host.depth) _ hv)
    intro _ w hw _ _
    exact behaves_pure hw trivial
  | false => exact behaves_act (endsWell_throw hu rfl)

theorem behaves_tracedLoadPrelude (host : Host) (hs : s.Orderly) :
    Behaves (fun _ => True) (tracedLoadPrelude host) s :=
  behaves_orIfMissing (behaves_tracedPrelude host hs) fun _ ht =>
    behaves_act (endsWell_log ht _ _ _)

theorem behaves_tracedOpening (host : Host) (prelude : Bool) (hs : s.Orderly) :
    Behaves (fun _ => True) (tracedOpening host prelude) s := by
  unfold tracedOpening
  split
  · exact behaves_act (endsWell_throw hs rfl)
  · cases prelude with
    | true => exact behaves_tracedLoadPrelude host hs
    | false => exact behaves_pure hs trivial

/-- A session starts in order, even if the prelude fails. -/
theorem start_endsWell (host : Host) (prelude : Bool) (journal : Journal) :
    ∃ s, EndsWell s (fun _ => True) (start host prelude (.initial journal)) := by
  obtain ⟨s, hregister, hs⟩ := Run.register_orderly journal
  refine ⟨s, ?_⟩
  rw [start_of_register hregister, ← Simulation.snd_eq_of_identity
    (Simulation.identity.simulates_opening host prelude) s]
  exact (behaves_tracedOpening host prelude hs).ending

theorem after_orderly (steps : List (Host × Step)) (hs : s.Orderly) :
    (after steps s).Orderly := by
  induction steps generalizing s with
  | nil => exact hs
  | cons step steps ih => exact ih (step.2.endsWell step.1 hs).store

theorem moments_orderly (steps : List (Host × Step)) (hs : s.Orderly) :
    ∀ m ∈ moments steps s, m.Orderly := by
  induction steps generalizing s with
  | nil => exact List.forall_mem_nil _
  | cons hostStep rest ih =>
    obtain ⟨host, step⟩ := hostStep
    have hdone := (step.endsWell host hs).store
    intro m hm
    obtain hm | hm := List.mem_append.mp hm
    · exact (step.behaves host hs).moments m hm
    · obtain rfl | hm := List.mem_cons.mp hm
      · exact .acted hdone
      · exact ih hdone m hm

/-- All moments of a session are in order. -/
theorem history_orderly (host : Host) (prelude : Bool) (journal : Journal)
    (steps : List (Host × Step)) : ∀ m ∈ history host prelude journal steps, m.Orderly := by
  obtain ⟨s, hregister, hs⟩ := Run.register_orderly journal
  obtain ⟨_, hstart⟩ := start_endsWell host prelude journal
  have hopening := (behaves_tracedOpening host prelude hs).moments
  intro m hm
  rw [history, tracedStart_of_register hregister] at hm
  obtain hm | hm := List.mem_append.mp hm
  · obtain rfl | hm := List.mem_cons.mp hm
    · exact .acted hs
    · exact hopening m hm
  · obtain rfl | hm := List.mem_cons.mp hm
    · exact .acted hstart.store
    · exact moments_orderly steps hstart.store m hm

/-- The failure is what the start of a session or one of its steps ends in. -/
def FailsWith (host : Host) (prelude : Bool) (journal : Journal) (failure : Failure) : Prop :=
  let started := start host prelude (.initial journal)
  (∃ t, started = .error failure t) ∨
    ∃ (earlier : List (Host × Step)) (host' : Host) (step : Step) (t : Store),
      step.run host' (after earlier (Result.store started)) = .error failure t

theorem FailsWith.expected {host : Host} {prelude : Bool} {journal : Journal} {failure : Failure}
    (h : FailsWith host prelude journal failure) : failure.expected = true := by
  obtain ⟨s, hstart⟩ := start_endsWell host prelude journal
  obtain ⟨t, ht⟩ | ⟨earlier, host', step, t, ht⟩ := h
  · rw [ht] at hstart
    exact hstart.expected
  · have hstep := step.endsWell host' (after_orderly earlier hstart.store)
    rw [ht] at hstep
    exact hstep.expected

end Session

/-! ### The global frame -/

/-- In every session the frame that is made first stays outermost on the stack and in all captured
stacks. Nothing fails for want of a frame, and `let-parent!` fails for want of a parent exactly
outside of all closures. -/
theorem global_frame_outermost (host : Host) (prelude : Bool) (journal : Journal)
    (steps : List (Host × Session.Step)) :
    ∃ (global : FrameId) (registered : Store),
      Run.register (.initial journal) = .ok () registered ∧
      registered.stack = [global] ∧ ¬ registered.InClosure ∧
      (∀ m ∈ Session.history host prelude journal steps,
        m.store.stack.getLast? = some global ∧
        (∀ c ∈ m.store.captures, c.getLast? = some global) ∧
        ∀ (host' : Host) (inner : Inner) (name : Text) (v : Value),
          (¬ m.store.InClosure → Form.bindParent.run host' inner [.atom name, v] m.store =
            .error (.error .noParentScope) m.store) ∧
          (m.store.InClosure → ∃ parent, Form.bindParent.run host' inner [.atom name, v] m.store =
            .ok v (m.store.bindAt parent name v))) ∧
      ¬ Session.FailsWith host prelude journal (.error .emptyStack) ∧
      ¬ Session.FailsWith host prelude journal (.error .popFromEmptyStack) := by
  -- binding the primitives leaves the scopes alone
  obtain ⟨registered, hregister, hscopes⟩ := Run.register_ok
    (P := ((Store.initial journal).push []).SameScopes) (fun _ _ _ _ h => ⟨h.1, h.2⟩)
    (fun _ _ h => ⟨h.1, h.2⟩) (.refl _)
  refine ⟨0, registered, hregister, hscopes.stack, not_not.mpr hscopes.pending, ?_, ?_, ?_⟩
  · intro m hm
    have horderly := (Session.history_orderly host prelude journal steps m hm).store
    refine ⟨horderly.scopes.getLast?, fun c => horderly.getLast?_of_mem_captures, ?_⟩
    intro host' inner name v
    constructor
    · intro hout
      exact Run.bind_of_error (horderly.bindParent_outside hout name v)
    · intro hin
      obtain ⟨parent, hbind⟩ := horderly.bindParent_inside hin name v
      exact ⟨parent, Run.bind_of_ok hbind⟩
  · exact fun h => nomatch h.expected
  · exact fun h => nomatch h.expected

/-! ### Numbers of operands -/

/-- In every session code runs only on as many operands as its procedure takes, so a closure with
fixed parameters leaves out none of these and none of the operands. Operands are refused without a
reason by the composition only. -/
theorem operands_match_arity (host : Host) (prelude : Bool) (journal : Journal)
    (steps : List (Host × Session.Step)) :
    (∀ m ∈ Session.history host prelude journal steps, ∀ (code : Code) (args : List Value),
      m.event = .running code args →
        (∃ id, (m.store.procedures.get id).code = code) ∧
        (∀ (id : ProcId) (n : Nat), (m.store.procedures.get id).code = code →
          (m.store.procedures.get id).arity = .exactly n → args.length = n) ∧
        ∀ names body captured, code = .closure (.fixed names) body captured →
          (names.zip args).map Prod.fst = names ∧ (names.zip args).map Prod.snd = args) ∧
    ∀ (name : Text) (fault : FormFault),
      Session.FailsWith host prelude journal (.error (.invalidForm name fault)) →
        fault.detail? = none → name = Text.ofString "." := by
  refine ⟨fun m hm code args hevent => ?_, fun name fault hfails hdetail => ?_⟩
  · have horderly := Session.history_orderly host prelude journal steps m hm
    obtain ⟨hknown, haccepts⟩ := horderly.running hevent
    refine ⟨hknown, ?_, ?_⟩
    · rintro id n rfl harity
      rw [← (horderly.store.procedures id).arity, harity] at haccepts
      exact (of_decide_eq_true haccepts).symm
    · rintro names body captured rfl
      have hlength : names.length = args.length := of_decide_eq_true haccepts
      exact ⟨List.map_fst_zip hlength.le, List.map_snd_zip hlength.ge⟩
  · have hexpected := hfails.expected
    cases fault with
    | wrongShape => exact of_decide_eq_true hexpected
    | _ => exact nomatch hdetail

end RationalLisp
