import RationalLisp.Proofs.OrderlyStores
import RationalLisp.Proofs.Outcomes

/-!
# Orderly runs

A run that starts in an orderly store is orderly throughout: the store is in order at every moment,
code runs only on as many operands as it is written for, and a failure is one that can be expected.

One walk through traced evaluation shows this. Calls check the number of operands against the arity
of a procedure, which in an orderly store is that of its code; compositions do so for the one
operand of their outer part.
-/

namespace RationalLisp

/-- The store is in order at the moment, and code that is about to run is known and gets as many
operands as it is written for. -/
structure Moment.Orderly (m : Moment) : Prop where
  store : m.store.Orderly
  running : ∀ {code args}, m.event = .running code args →
    m.store.procedures.Knows code ∧ code.arity.accepts args.length = true

theorem Moment.Orderly.of_ne {event : Event} {s : Store} (hs : s.Orderly)
    (h : ∀ code args, event ≠ .running code args) : Moment.Orderly ⟨event, s⟩ :=
  ⟨hs, fun hevent => absurd hevent (h _ _)⟩

theorem Moment.Orderly.acted {s : Store} (hs : s.Orderly) : Moment.Orderly ⟨.acted, s⟩ :=
  .of_ne hs fun _ _ => Event.noConfusion

/-- A computation that started in the given store ends in order: with a value as asked for, or with
a failure that can be expected. -/
inductive Result.EndsWell {α : Type} (s : Store) (post : α → Prop) : Result α → Prop
  | ok {a t} : t.Orderly → s.Learns t → post a → EndsWell s post (.ok a t)
  | error {failure t} : t.Orderly → s.Learns t → failure.expected = true →
      EndsWell s post (.error failure t)

/-- From the given store, the computation is in order at every moment and at its end. -/
structure Traced.Behaves {α : Type} (post : α → Prop) (n : Traced α) (s : Store) : Prop where
  moments : ∀ m ∈ (n s).1, m.Orderly
  ending : Result.EndsWell s post (n s).2

/-- Evaluation is in order, whatever the expression. -/
def Traced.EvaluatesWell (eval : Value → Traced Value) : Prop :=
  ∀ e s, s.Orderly → Behaves (fun _ => True) (eval e) s

/-! ### The surroundings -/

/-- The answer of the surroundings is not a failure, or is one that can be expected. -/
def FailsAsExpected {α : Type} (x : Except Failure α) : Prop :=
  ∀ failure, x = .error failure → failure.expected = true

theorem failsAsExpected_ok {α : Type} (a : α) : FailsAsExpected (.ok a) := fun _ h => nomatch h

theorem failsAsExpected_error {α : Type} {failure : Failure} (h : failure.expected = true) :
    FailsAsExpected (.error failure : Except Failure α) := by
  intro failure' heq
  rw [← Except.error.inj heq]
  exact h

theorem failsAsExpected_bind {α β : Type} {x : Except Failure α} {k : α → Except Failure β}
    (hx : FailsAsExpected x) (hk : ∀ a, FailsAsExpected (k a)) : FailsAsExpected (x >>= k) := by
  cases x with
  | ok a => exact hk a
  | error failure => exact failsAsExpected_error (hx failure rfl)

namespace Host

theorem failsAsExpected_leadsTo (kind : Entry → Bool) (host : Host) (p : Path) :
    FailsAsExpected (host.leadsTo kind p) := by
  unfold leadsTo
  split
  · exact failsAsExpected_ok _
  · split
    · exact failsAsExpected_ok _
    · exact failsAsExpected_error rfl
    · exact failsAsExpected_error rfl
    · exact failsAsExpected_ok _

theorem failsAsExpected_readSource (host : Host) (p : Path) :
    FailsAsExpected (host.readSource p) := by
  simp only [readSource]
  split
  · exact failsAsExpected_error rfl
  · split
    · exact failsAsExpected_error rfl
    · exact failsAsExpected_error rfl
    · exact failsAsExpected_error rfl
    · exact failsAsExpected_error rfl
    · split
      · exact failsAsExpected_ok _
      · exact failsAsExpected_error rfl

theorem failsAsExpected_firstFile? (host : Host) (paths : List Path) :
    FailsAsExpected (host.firstFile? paths) := by
  induction paths with
  | nil => exact failsAsExpected_ok _
  | cons p rest ih =>
    apply failsAsExpected_bind (failsAsExpected_leadsTo _ host p)
    intro isThere
    cases isThere with
    | true => exact failsAsExpected_ok _
    | false => exact ih

theorem failsAsExpected_candidates (host : Host) (p : Path) :
    FailsAsExpected (host.candidates p) := by
  simp only [candidates, searchRoots]
  split
  · exact failsAsExpected_ok _
  split
  · exact failsAsExpected_ok _
  · exact failsAsExpected_error rfl

theorem failsAsExpected_resolve (host : Host) (path : Text) :
    FailsAsExpected (host.resolve path) := by
  apply failsAsExpected_bind (host.failsAsExpected_candidates _)
  intro paths
  apply failsAsExpected_bind (host.failsAsExpected_firstFile? paths)
  intro found
  cases found with
  | some p => exact failsAsExpected_ok p
  | none => exact failsAsExpected_error rfl

theorem failsAsExpected_preludeRoot (host : Host) : FailsAsExpected host.preludeRoot := by
  unfold preludeRoot
  split
  · exact failsAsExpected_error rfl
  · exact failsAsExpected_bind (failsAsExpected_leadsTo _ host _) fun _ => failsAsExpected_ok _

end Host

/-! ### Actions -/

namespace Result

variable {α : Type} {s t : Store} {post : α → Prop} {r : Result α}

theorem EndsWell.store (h : EndsWell s post r) : (Result.store r).Orderly := by
  cases h with
  | ok ht _ _ => exact ht
  | error ht _ _ => exact ht

theorem EndsWell.after (h : EndsWell t post r) (hlearns : s.Learns t) : EndsWell s post r := by
  cases h with
  | ok hu hlearns' ha => exact .ok hu (hlearns.trans hlearns') ha
  | error hu hlearns' hfailure => exact .error hu (hlearns.trans hlearns') hfailure

theorem EndsWell.expected {failure : Failure} (h : EndsWell s post (.error failure t)) :
    failure.expected = true := by
  cases h with
  | error _ _ hfailure => exact hfailure

theorem endsWell_pure (hs : s.Orderly) {a : α} (ha : post a) :
    EndsWell s post ((pure a : Run α) s) := .ok hs (.refl s) ha

theorem endsWell_throw (hs : s.Orderly) {failure : Failure} (hf : failure.expected = true) :
    EndsWell s post ((throw failure : Run α) s) := .error hs (.refl s) hf

theorem endsWell_ofExcept (hs : s.Orderly) {x : Except Failure α} (hx : FailsAsExpected x) :
    EndsWell s (fun _ => True) (Run.ofExcept x s) := by
  cases x with
  | ok a => exact endsWell_pure hs trivial
  | error failure => exact endsWell_throw hs (hx failure rfl)

theorem endsWell_make (hs : s.Orderly) {p : Procedure} (hp : s.procedures.Admits p) :
    EndsWell s (fun _ => True) (Run.make p s) :=
  .ok (hs.allocate hp) (.allocate s p) trivial

theorem endsWell_log (hs : s.Orderly) (logger : Text) (severity : Severity) (message : Text) :
    EndsWell s (fun _ => True) (Run.log logger severity message s) :=
  .ok ⟨hs.procedures, hs.scopes⟩ (fun _ h => h) trivial

theorem endsWell_procedure (hs : s.Orderly) (id : ProcId) :
    EndsWell s (fun p => p = s.procedures.get id) (Run.procedure id s) := .ok hs (.refl s) rfl

theorem endsWell_lookup (hs : s.Orderly) (name : Text) :
    EndsWell s (fun _ => True) (Run.lookup name s) := by
  rw [Run.lookup_eq]
  cases s.lookup? name with
  | some v => exact endsWell_pure hs trivial
  | none => exact endsWell_throw hs rfl

/-- What passes the check has as many operands as are asked for. -/
theorem endsWell_check (hs : s.Orderly) (arity : Arity) (name : Text) (count : Nat) :
    EndsWell s (fun _ => arity.accepts count = true) (arity.check name count s) := by
  cases arity with
  | variadic => exact endsWell_pure hs rfl
  | exactly n =>
    rw [Arity.check]
    split
    · rename_i hcount
      exact endsWell_pure hs (by simpa [Arity.accepts] using hcount)
    · exact endsWell_throw hs rfl

/-- What a primitive comes to is in order if it gets as many operands as it takes. -/
theorem endsWell_of_settled (hs : s.Orderly) {arity : Arity} {args : List Value} {m : Run Value}
    (h : Run.Settled s.procedures (Outcome.Fits arity args s.procedures) m)
    (haccepts : arity.accepts args.length = true) : EndsWell s (fun _ => True) (m s) := by
  obtain ⟨o, hfits, heq⟩ := h
  rw [heq s rfl]
  cases o with
  | answer v => exact endsWell_pure hs trivial
  | print text => exact .ok ⟨hs.procedures, hs.scopes⟩ (fun _ h => h) trivial
  | make p =>
    obtain ⟨outer, inner, rfl⟩ := hfits
    exact endsWell_make hs (Procedures.admits_compose (hs.procedures outer) (hs.procedures inner))
  | fail failure => exact endsWell_throw hs (hfits haccepts)

theorem endsWell_failShowing (hs : s.Orderly) (room : Nat) (v : Value) {e : Text → Error}
    (he : ∀ shown, (Failure.error (e shown)).expected = true) :
    EndsWell s (fun _ => True) ((do
      let shown ← Run.display room v
      Run.fail (e shown) : Run Value) s) := by
  have hsettled : Run.Settled s.procedures (Outcome.Fits .variadic [] s.procedures) (do
      let shown ← Run.display room v
      Run.fail (e shown)) := Run.settled_failShowing room v he
  exact endsWell_of_settled hs hsettled rfl

theorem endsWell_string (hs : s.Orderly) (f : Form) (v : Value) :
    EndsWell s (fun _ => True) (f.string v s) := by
  unfold Form.string
  cases v.toText? with
  | some t => exact endsWell_pure hs trivial
  | none => exact endsWell_throw hs rfl

/-- A closure captures the present stack, which ends with the global frame. -/
theorem endsWell_lambda (hs : s.Orderly) (host : Host) (inner : Inner) (k : LambdaKind)
    {args : List Value} (haccepts : (Form.lambda k).arity.accepts args.length = true) :
    EndsWell s (fun _ => True) ((Form.lambda k).run host inner args s) := by
  simp only [Form.run]
  split
  · rename_i spec body
    cases Params.ofValue? spec with
    | some params => exact endsWell_make hs (Procedures.admits_closure hs.scopes.getLast?)
    | none => exact endsWell_throw hs rfl
  · rename_i hne
    exact absurd haccepts (by simp [Form.arity, Arity.not_accepts_two hne])

theorem endsWell_bindInner (hs : s.Orderly) (host : Host) (inner : Inner) (args : List Value) :
    EndsWell s (fun _ => True) (Form.bindInner.run host inner args s) := by
  simp only [Form.run]
  split
  · rename_i name v
    obtain ⟨id, hbind⟩ := hs.bindInnermost name v
    rw [Run.bind_of_ok hbind]
    exact .ok (hs.bindAt id name v) (fun _ h => h) trivial
  · exact endsWell_throw hs rfl

theorem endsWell_bindParent (hs : s.Orderly) (host : Host) (inner : Inner) (args : List Value) :
    EndsWell s (fun _ => True) (Form.bindParent.run host inner args s) := by
  simp only [Form.run]
  split
  · rename_i name v
    by_cases hin : s.InClosure
    · obtain ⟨parent, hbind⟩ := hs.bindParent_inside hin name v
      rw [Run.bind_of_ok hbind]
      exact .ok (hs.bindAt parent name v) (fun _ h => h) trivial
    · rw [Run.bind_of_error (hs.bindParent_outside hin name v)]
      exact endsWell_throw hs rfl
  · exact endsWell_throw hs rfl

end Result

open Result

/-! ### Rules for traced computations -/

namespace Traced

variable {α β : Type} {post : α → Prop} {post' : β → Prop} {s : Store}

theorem behaves_pure (hs : s.Orderly) {a : α} (ha : post a) :
    Behaves post (pure a : Traced α) s :=
  ⟨List.forall_mem_nil _, .ok hs (.refl s) ha⟩

theorem behaves_bind {n : Traced α} {k : α → Traced β} (h : Behaves post n s)
    (hk : ∀ a t, t.Orderly → s.Learns t → post a → Behaves post' (k a) t) :
    Behaves post' (n >>= k) s := by
  obtain ⟨moments, ending⟩ := h
  generalize hn : (n s).2 = r at ending
  cases ending with
  | ok ht hlearns ha =>
    rename_i a t
    obtain ⟨moments', ending'⟩ := hk a t ht hlearns ha
    constructor
    · rw [bind_of_ok hn]
      intro m hm
      exact (List.mem_append.mp hm).elim (moments m) (moments' m)
    · rw [bind_of_ok hn]
      exact ending'.after hlearns
  | error ht hlearns hfailure =>
    constructor
    · rw [bind_of_error hn]
      exact moments
    · rw [bind_of_error hn]
      exact .error ht hlearns hfailure

theorem behaves_orIfMissing {n n' : Traced α} (h : Behaves post n s)
    (h' : ∀ t, t.Orderly → Behaves post n' t) : Behaves post (n.orIfMissing n') s := by
  by_cases hmissing : ∃ t, (n s).2 = .error (.inaccessible .missing) t
  · obtain ⟨t, hn⟩ := hmissing
    obtain ⟨moments, ending⟩ := h
    rw [hn] at ending
    cases ending with
    | error ht hlearns _ =>
      obtain ⟨moments', ending'⟩ := h' t ht
      constructor
      · rw [orIfMissing_of_missing hn]
        intro m hm
        exact (List.mem_append.mp hm).elim (moments m) (moments' m)
      · rw [orIfMissing_of_missing hn]
        exact ending'.after hlearns
  · have hn : n.orIfMissing n' s = n s := orIfMissing_of_ne (not_exists.mp hmissing)
    constructor
    · rw [hn]
      exact h.moments
    · rw [hn]
      exact h.ending

theorem behaves_act {m : Run α} (h : EndsWell s post (m s)) : Behaves post (act m) s := by
  refine ⟨fun moment hmoment => ?_, h⟩
  rw [List.mem_singleton.mp hmoment]
  exact .acted h.store

theorem behaves_mark {event : Event} (hevent : Moment.Orderly ⟨event, s⟩) {n : Traced α}
    (h : Behaves post n s) : Behaves post (mark event n) s :=
  ⟨List.forall_mem_cons.mpr ⟨hevent, h.moments⟩, h.ending⟩

theorem behaves_withScope (hs : s.Orderly) {frame : Frame} {base : Stack}
    (hbase : base.getLast? = some 0) {n : Traced α}
    (h : ∀ t, t.Orderly → Behaves post n t) : Behaves post (withScope frame base n) s := by
  have henter : (s.enter frame base).Orderly := hs.enter frame hbase
  obtain ⟨moments, ending⟩ := h _ henter
  have hleave : EndsWell s post (mapStore Store.leave (n (s.enter frame base)).2) := by
    generalize (n (s.enter frame base)).2 = r at ending
    cases ending with
    | ok ht hlearns ha => exact .ok ht.leave (hlearns.trans (.leave _)) ha
    | error ht hlearns hfailure => exact .error ht.leave (hlearns.trans (.leave _)) hfailure
  refine ⟨List.forall_mem_cons.mpr ⟨.of_ne henter nofun, fun m hm => ?_⟩, hleave⟩
  obtain hm | hm := List.mem_append.mp hm
  · exact moments m hm
  · rw [List.mem_singleton.mp hm]
    exact .acted hleave.store

/-! ### Programs -/

variable {eval : Value → Traced Value}

theorem behaves_ofExcept (hs : s.Orderly) {x : Except Failure α} (hx : FailsAsExpected x) :
    Behaves (fun _ => True) (act (Run.ofExcept x)) s :=
  behaves_act (endsWell_ofExcept hs hx)

theorem behaves_sequence (heval : EvaluatesWell eval) (last : Value) (exprs : List Value)
    (hs : s.Orderly) : Behaves (fun _ => True) (sequence eval last exprs) s := by
  induction exprs generalizing s last with
  | nil => exact behaves_pure hs trivial
  | cons e rest ih =>
    apply behaves_bind (heval e s hs)
    intro v t ht _ _
    exact ih v ht

theorem behaves_program (heval : EvaluatesWell eval) (p : Program) (hs : s.Orderly) :
    Behaves (fun _ => True) (program eval p) s := by
  apply behaves_bind (behaves_sequence heval .null p.exprs hs)
  intro v t ht _ _
  cases p.fault with
  | none => exact behaves_pure ht trivial
  | some failure => exact behaves_act (endsWell_throw ht failure.expected_toFailure)

theorem behaves_source (host : Host) {inner : Inner} (heval : EvaluatesWell inner.eval) (p : Path)
    (hs : s.Orderly) : Behaves (fun _ => True) (source host inner p) s := by
  apply behaves_bind (behaves_ofExcept hs (host.failsAsExpected_readSource p))
  intro text t ht _ _
  exact behaves_program heval _ ht

theorem behaves_load (host : Host) {inner : Inner} (heval : EvaluatesWell inner.eval) (path : Text)
    (hs : s.Orderly) : Behaves (fun _ => True) (load host inner path) s := by
  apply behaves_bind (behaves_ofExcept hs (host.failsAsExpected_resolve path))
  intro p t ht _ _
  apply behaves_bind (behaves_act (endsWell_log ht _ _ _))
  intro _ u hu _ _
  exact behaves_source host heval p hu

/-! ### Calls -/

theorem behaves_form (host : Host) {inner : Inner} (heval : EvaluatesWell inner.eval) (f : Form)
    {args : List Value} (hs : s.Orderly) (haccepts : f.arity.accepts args.length = true) :
    Behaves (fun _ => True) (form host inner f args) s := by
  cases f with
  | choose =>
    rcases args with _ | ⟨condition, _ | ⟨yes, _ | ⟨no, _ | ⟨_, _⟩⟩⟩⟩
    case cons.cons.cons.nil =>
      apply behaves_bind (heval condition s hs)
      intro v t ht _ _
      split
      · exact heval no t ht
      · exact heval yes t ht
    all_goals exact absurd haccepts (by simp [Form.arity, Arity.accepts])
  | evaluate =>
    rcases args with _ | ⟨e, _ | ⟨_, _⟩⟩
    case cons.nil => exact heval e s hs
    all_goals exact absurd haccepts (by simp [Form.arity, Arity.accepts])
  | load =>
    rcases args with _ | ⟨path, _ | ⟨_, _⟩⟩
    case cons.nil =>
      apply behaves_bind (behaves_act (endsWell_string hs .load path))
      intro text t ht _ _
      exact behaves_load host heval text ht
    all_goals exact absurd haccepts (by simp [Form.arity, Arity.accepts])
  | lambda k => exact behaves_act (endsWell_lambda hs host _ k haccepts)
  | bindInner => exact behaves_act (endsWell_bindInner hs host _ args)
  | bindParent => exact behaves_act (endsWell_bindParent hs host _ args)
  | quote | sequence | read =>
    exact behaves_act (endsWell_of_settled hs (Form.settled_run host _ rfl args _) haccepts)

/-- Known code that gets as many operands as it is written for is in order. The parts of a
composition are known, and the outer one is checked against its own arity. -/
theorem behaves_code (host : Host) {inner : Inner} (heval : EvaluatesWell inner.eval) {c : Code}
    {args : List Value} (hs : s.Orderly) (hknown : s.procedures.Knows c)
    (haccepts : c.arity.accepts args.length = true) :
    Behaves (fun _ => True) (code host inner c args) s := by
  induction c generalizing s args
  all_goals
    rw [code]
    refine behaves_mark ⟨hs, fun hevent => ?_⟩ ?_
    · cases hevent
      exact ⟨hknown, haccepts⟩
  case primitive p =>
    cases p with
    | builtin b => exact behaves_act (endsWell_of_settled hs (b.settled_run _ args _) haccepts)
    | form f => exact behaves_form host heval f hs haccepts
  case closure params body captured =>
    obtain ⟨id, hid⟩ := hknown
    have hcaptured : captured.getLast? = some 0 :=
      (hs.procedures id).captures captured (by simp [hid, Code.captures])
    exact behaves_withScope hs hcaptured (heval body)
  case composition name arity outer inner ihOuter ihInner =>
    obtain ⟨id, hid⟩ := hknown
    obtain ⟨harity, houter, hinner⟩ := (hs.procedures id).parts hid
    apply behaves_bind (ihInner hs hinner haccepts)
    intro v t ht hlearns _
    apply behaves_bind (behaves_act (endsWell_check ht arity name 1))
    intro _ u hu hlearns' hone
    exact ihOuter hu (hlearns' (hlearns houter)) (harity ▸ hone)
  case operands => exact behaves_pure hs trivial

/-- There are as many values as operands. -/
theorem behaves_evalAll (heval : EvaluatesWell eval) (operands : List Value) (hs : s.Orderly) :
    Behaves (fun vs => vs.length = operands.length) (evalAll eval operands) s := by
  induction operands generalizing s with
  | nil => exact behaves_pure hs rfl
  | cons e rest ih =>
    apply behaves_bind (heval e s hs)
    intro v t ht _ _
    apply behaves_bind (ih ht)
    intro vs u hu _ hlength
    exact behaves_pure hu (by simp [hlength])

theorem behaves_call (host : Host) {inner : Inner} (heval : EvaluatesWell inner.eval) (id : ProcId)
    (operands : List Value) (hs : s.Orderly) :
    Behaves (fun _ => True) (call host inner id operands) s := by
  apply behaves_bind (behaves_act (endsWell_procedure hs id))
  rintro p t ht hlearns rfl
  apply behaves_bind (behaves_act (endsWell_check ht _ _ _))
  intro _ u hu hlearns' haccepts
  rw [(hs.procedures id).arity] at haccepts
  have hknown := hlearns' (hlearns (s.procedures.knows_get id))
  cases hpolicy : (s.procedures.get id).evaluatesOperands with
  | true =>
    apply behaves_bind (behaves_evalAll heval operands hu)
    intro args v hv hlearns'' hlength
    exact behaves_code host heval hv (hlearns'' hknown) (hlength ▸ haccepts)
  | false =>
    apply behaves_bind (behaves_pure hu rfl)
    rintro args v hv hlearns'' rfl
    exact behaves_code host heval hv (hlearns'' hknown) haccepts

/-! ### Evaluation -/

theorem behaves_evalStep (host : Host) {inner : Inner} (heval : EvaluatesWell inner.eval)
    (e : Value) (hs : s.Orderly) : Behaves (fun _ => True) (evalStep host inner e) s := by
  cases e with
  | atom name => exact behaves_act (endsWell_lookup hs name)
  | cell head tail =>
    apply behaves_bind (heval head s hs)
    intro f t ht _ _
    cases f with
    | proc id =>
      cases tail.toList? with
      | some operands => exact behaves_call host heval id operands ht
      | none => exact behaves_act (endsWell_failShowing ht _ head fun _ => rfl)
    | _ => exact behaves_act (endsWell_failShowing ht _ _ fun _ => rfl)
  | _ => exact behaves_pure hs trivial

theorem evaluatesWell_eval (host : Host) (depth : Nat) :
    EvaluatesWell (Traced.eval host depth) := by
  induction depth with
  | zero =>
    intro e s hs
    exact behaves_act (endsWell_throw hs rfl)
  | succ depth ih =>
    intro e s hs
    refine behaves_mark ?_ (behaves_evalStep host ih e hs)
    exact .of_ne hs nofun

end Traced

end RationalLisp
