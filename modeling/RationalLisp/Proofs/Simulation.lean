import RationalLisp.Proofs.ReaderValues
import RationalLisp.Proofs.Trace
import Mathlib.Data.Set.Lattice
import Mathlib.Order.CompletePartialOrder

/-!
# Simulation

Computations touch the store through a few operations only: they look names up, bind them, make
procedures, print, log, and enter and leave scopes. A relation between stores that these operations
respect is respected by whatever is put together from them. Along the way the stack is always put
back, and each moment of a run is linked to the one before it.

## Implementation notes

A relation comes in worlds, which grow as a run goes on. A world says which procedures may occur in
values and which stacks closures may have captured. Two stores run side by side: a computation
starts in the first, its traced counterpart in the second.
-/

namespace RationalLisp

/-- The two stores have the same stack, and the same stacks put aside. -/
structure Store.SameScopes (s t : Store) : Prop where
  stack : t.stack = s.stack
  pending : t.pending = s.pending

namespace Store.SameScopes

variable {s t u : Store}

theorem refl (s : Store) : s.SameScopes s := ⟨rfl, rfl⟩

theorem trans (h : s.SameScopes t) (h' : t.SameScopes u) : s.SameScopes u :=
  ⟨h'.stack.trans h.stack, h'.pending.trans h.pending⟩

/-- A scope that ends as it began gives the stack back. -/
theorem leave {frame : Frame} {base : Stack} (h : (s.enter frame base).SameScopes t) :
    s.SameScopes t.leave := by
  have hp : t.pending = s.stack :: s.pending := h.pending
  unfold Store.leave
  rw [hp]
  exact ⟨rfl, rfl⟩

end Store.SameScopes

/-- The moments lead from one store to another, each of them linked to the store before it. The
last link is an action. -/
def Linked (Link : Store → Moment → Prop) : Store → List Moment → Store → Prop
  | s, [], t => Link s ⟨.acted, t⟩
  | s, m :: rest, t => Link s m ∧ Linked Link m.store rest t

/-- What every link keeps holds at every moment and at the end. -/
theorem Linked.forall_mem {Link : Store → Moment → Prop} {P : Store → Prop} {s t : Store}
    {ms : List Moment} (h : Linked Link s ms t) (hlink : ∀ {s m}, Link s m → P s → P m.store)
    (hs : P s) : (∀ m ∈ ms, P m.store) ∧ P t := by
  induction ms generalizing s with
  | nil => exact ⟨by simp, hlink h hs⟩
  | cons m ms ih =>
    have hm : P m.store := hlink h.1 hs
    obtain ⟨hms, ht⟩ := ih h.2 hm
    exact ⟨List.forall_mem_cons.mpr ⟨hm, hms⟩, ht⟩

variable {W : Type} [Preorder W]

/-- What the operations on stores have to respect. In a world `w`, values hold only procedures that
are `allowed w`, and closures have captured only stacks that are `base w`. -/
structure Simulation (allowed : W → ProcId → Prop) (base : W → Stack → Prop)
    (R : W → Store → Store → Prop) (Link : Store → Moment → Prop) : Prop where
  allowed_mono : ∀ {w w'}, w ≤ w' → ∀ id, allowed w id → allowed w' id
  base_mono : ∀ {w w'}, w ≤ w' → ∀ c, base w c → base w' c
  stack_eq : ∀ {w s t}, R w s t → s.stack = t.stack
  procedures_eq : ∀ {w s t}, R w s t → s.procedures = t.procedures
  lookup_eq : ∀ {w s t}, R w s t → ∀ name, s.lookup? name = t.lookup? name
  lookup_within : ∀ {w s t}, R w s t → ∀ {name v}, s.lookup? name = some v → v.Within (allowed w)
  code_within : ∀ {w s t}, R w s t → ∀ {id}, allowed w id →
    ∃ w', w ≤ w' ∧ R w' s t ∧ (s.procedures.get id).code.Within (allowed w') (base w')
  link_refl : ∀ t, Link t ⟨.acted, t⟩
  link_trans : ∀ {t u m}, Link t ⟨.acted, u⟩ → Link u m → Link t m
  link_evaluating : ∀ e t, Link t ⟨.evaluating e, t⟩
  link_running : ∀ code args t, Link t ⟨.running code args, t⟩
  bindAt : ∀ {w s t}, R w s t → ∀ {id}, id ∈ s.stack → ∀ name {v}, v.Within (allowed w) →
    R w (s.bindAt id name v) (t.bindAt id name v) ∧ Link t ⟨.acted, t.bindAt id name v⟩
  allocate : ∀ {w s t}, R w s t → ∀ {p : Procedure}, p.MadeIn (allowed w) s →
    p.code.Within (allowed w) (fun c => base w c ∨ c = s.stack) →
    ∃ w', w ≤ w' ∧ R w' (s.allocate p) (t.allocate p) ∧ allowed w' s.procedures.size ∧
      Link t ⟨.acted, t.allocate p⟩
  print : ∀ {w s t}, R w s t → ∀ text,
    R w { s with output := s.output.write text } { t with output := t.output.write text } ∧
      Link t ⟨.acted, { t with output := t.output.write text }⟩
  log : ∀ {w s t}, R w s t → ∀ logger severity message,
    R w { s with journal := s.journal.record logger severity message }
      { t with journal := t.journal.record logger severity message } ∧
      Link t ⟨.acted, { t with journal := t.journal.record logger severity message }⟩
  enter : ∀ {w s t}, R w s t → ∀ {frame c}, frame.Within (allowed w) → frame.names.Nodup →
    base w c → R w (s.enter frame c) (t.enter frame c) ∧ Link t ⟨.entered, t.enter frame c⟩
  leave : ∀ {w s t}, R w s t → ∀ {frame c}, base w c → ∀ {w' s' t'}, w ≤ w' → R w' s' t' →
    (s.enter frame c).SameScopes s' → (t.enter frame c).SameScopes t' →
    R w' s'.leave t'.leave ∧ Link t' ⟨.acted, t'.leave⟩

/-- Two endings agree on the value or the failure, and their stores are related in a later world. -/
inductive Matches {α : Type} (R : W → Store → Store → Prop) (ok : W → α → Prop) (w : W) :
    Result α → Result α → Prop
  | ok {w' a s t} : w ≤ w' → ok w' a → R w' s t → Matches R ok w (.ok a s) (.ok a t)
  | error {w' failure s t} : w ≤ w' → R w' s t →
      Matches R ok w (.error failure s) (.error failure t)

theorem Matches.weaken {α : Type} {R : W → Store → Store → Prop} {ok ok' : W → α → Prop} {w w' : W}
    {r r' : Result α} (h : Matches R ok w' r r') (hw : w ≤ w')
    (hok : ∀ w a, ok w a → ok' w a) : Matches R ok' w r r' := by
  cases h with
  | ok hw' ha hst => exact .ok (hw.trans hw') (hok _ _ ha) hst
  | error hw' hst => exact .error (hw.trans hw') hst

theorem Matches.exists_error {α : Type} {R : W → Store → Store → Prop} {ok : W → α → Prop} {w : W}
    {r : Result α} {failure : Failure} {t : Store} (h : Matches R ok w r (.error failure t)) :
    ∃ s, r = .error failure s := by
  cases h with
  | error _ _ => exact ⟨_, rfl⟩

/-- From related stores, a computation and its traced counterpart come to endings that match, both
put the stack back, and the moments are linked. -/
structure Follows {α : Type} (R : W → Store → Store → Prop) (Link : Store → Moment → Prop)
    (ok : W → α → Prop) (w : W) (m : Run α) (n : Traced α) (s t : Store) : Prop where
  agree : Matches R ok w (m s) (n t).2
  scopes : s.SameScopes (Result.store (m s))
  scopes' : t.SameScopes (Result.store (n t).2)
  linked : Linked Link t (n t).1 (Result.store (n t).2)

theorem Follows.weaken {α : Type} {R : W → Store → Store → Prop} {Link : Store → Moment → Prop}
    {ok : W → α → Prop} {w w' : W} {m : Run α} {n : Traced α} {s t : Store}
    (h : Follows R Link ok w' m n s t) (hw : w ≤ w') : Follows R Link ok w m n s t :=
  ⟨h.agree.weaken hw fun _ _ ha => ha, h.scopes, h.scopes', h.linked⟩

/-- A computation and its traced counterpart follow each other from all related stores. -/
def Simulates {α : Type} (R : W → Store → Store → Prop) (Link : Store → Moment → Prop)
    (ok : W → α → Prop) (w : W) (m : Run α) (n : Traced α) : Prop :=
  ∀ s t, R w s t → Follows R Link ok w m n s t

/-- A computation that evaluates nothing follows itself. -/
def Acts {α : Type} (R : W → Store → Store → Prop) (Link : Store → Moment → Prop)
    (ok : W → α → Prop) (w : W) (m : Run α) : Prop :=
  Simulates R Link ok w m (Traced.quiet m)

/-- The value holds only procedures that are allowed in the world. -/
abbrev Holding (allowed : W → ProcId → Prop) (w : W) (v : Value) : Prop := v.Within (allowed w)

/-- Any value will do. -/
def anything {α : Type} (_ : W) (_ : α) : Prop := True

/-- Evaluation and its traced counterpart follow each other on every expression that holds only
procedures that are allowed. -/
def SimulatesEval (allowed : W → ProcId → Prop) (R : W → Store → Store → Prop)
    (Link : Store → Moment → Prop) (eval : Value → Run Value) (traced : Value → Traced Value) :
    Prop :=
  ∀ w e, e.Within (allowed w) → Simulates R Link (Holding allowed) w (eval e) (traced e)

namespace Simulation

variable {allowed : W → ProcId → Prop} {base : W → Stack → Prop}
variable {R : W → Store → Store → Prop} {Link : Store → Moment → Prop}
variable {α β : Type} {ok ok' : W → α → Prop} {ok₂ : W → β → Prop} {w w' : W}

theorem within_mono (sim : Simulation allowed base R Link) (hw : w ≤ w') {v : Value}
    (hv : v.Within (allowed w)) : v.Within (allowed w') := hv.mono (sim.allowed_mono hw)

/-! ### Rules for computations -/

theorem linked_append (sim : Simulation allowed base R Link) {s t u : Store} {ms ms' : List Moment}
    (h : Linked Link s ms t) (h' : Linked Link t ms' u) : Linked Link s (ms ++ ms') u := by
  induction ms generalizing s with
  | nil =>
    cases ms' with
    | nil => exact sim.link_trans h h'
    | cons m ms' => exact ⟨sim.link_trans h h'.1, h'.2⟩
  | cons m ms ih => exact ⟨h.1, ih h.2⟩

theorem simulates_pure (sim : Simulation allowed base R Link) {a : α} (h : ok w a) :
    Simulates R Link ok w (pure a) (pure a) := by
  intro s t hst
  exact ⟨.ok le_rfl h hst, .refl s, .refl t, sim.link_refl t⟩

theorem simulates_bind (sim : Simulation allowed base R Link) {m : Run α} {n : Traced α}
    {k : α → Run β} {l : α → Traced β} (h : Simulates R Link ok w m n)
    (hk : ∀ w', w ≤ w' → ∀ a, ok w' a → Simulates R Link ok₂ w' (k a) (l a)) :
    Simulates R Link ok₂ w (m >>= k) (n >>= l) := by
  intro s t hst
  obtain ⟨agree, scopes, scopes', linked⟩ := h s t hst
  change Follows R Link ok₂ w (EStateM.bind m k) _ s t
  generalize hm : m s = r at agree scopes
  generalize hn : (n t).2 = r' at agree scopes' linked
  cases agree with
  | ok hw ha hst' =>
    rename_i w' a s' t'
    obtain ⟨agree₂, scopes₂, scopes₂', linked₂⟩ := hk w' hw a ha s' t' hst'
    constructor
    · rw [EStateM.bind, hm, Traced.bind_of_ok hn]
      exact agree₂.weaken hw fun _ _ hb => hb
    · rw [EStateM.bind, hm]
      exact scopes.trans scopes₂
    · rw [Traced.bind_of_ok hn]
      exact scopes'.trans scopes₂'
    · rw [Traced.bind_of_ok hn]
      exact sim.linked_append linked linked₂
  | error hw hst' =>
    constructor
    · rw [EStateM.bind, hm, Traced.bind_of_error hn]
      exact .error hw hst'
    · rw [EStateM.bind, hm]
      exact scopes
    · rw [Traced.bind_of_error hn]
      exact scopes'
    · rw [Traced.bind_of_error hn]
      exact linked

/-- What a computation goes on with if something was missing starts in related stores, too. -/
theorem simulates_orIfMissing (sim : Simulation allowed base R Link) {m m' : Run α}
    {n n' : Traced α} (h : Simulates R Link ok w m n)
    (h' : ∀ w', w ≤ w' → Simulates R Link ok w' m' n') :
    Simulates R Link ok w (m.orIfMissing m') (n.orIfMissing n') := by
  intro s t hst
  obtain ⟨agree, scopes, scopes', linked⟩ := h s t hst
  by_cases hmissing : ∃ s', m s = .error (.inaccessible .missing) s'
  · obtain ⟨s', hm⟩ := hmissing
    rw [hm] at agree scopes
    generalize hn : (n t).2 = r at agree scopes' linked
    cases agree with
    | @error w' _ _ t' hw hst' =>
      obtain ⟨agree₂, scopes₂, scopes₂', linked₂⟩ := h' w' hw s' t' hst'
      constructor
      · rw [Run.orIfMissing_of_missing hm, Traced.orIfMissing_of_missing hn]
        exact agree₂.weaken hw fun _ _ ha => ha
      · rw [Run.orIfMissing_of_missing hm]
        exact scopes.trans scopes₂
      · rw [Traced.orIfMissing_of_missing hn]
        exact scopes'.trans scopes₂'
      · rw [Traced.orIfMissing_of_missing hn]
        exact sim.linked_append linked linked₂
  · have hm : m.orIfMissing m' s = m s := Run.orIfMissing_of_ne (not_exists.mp hmissing)
    have hn : n.orIfMissing n' t = n t := by
      refine Traced.orIfMissing_of_ne fun t' ht' => hmissing ?_
      rw [ht'] at agree
      exact agree.exists_error
    constructor
    · rw [hm, hn]
      exact agree
    · rw [hm]
      exact scopes
    · rw [hn]
      exact scopes'
    · rw [hn]
      exact linked

theorem simulates_mark {event : Event} (hlink : ∀ t, Link t ⟨event, t⟩) {m : Run α} {n : Traced α}
    (h : Simulates R Link ok w m n) : Simulates R Link ok w m (Traced.mark event n) := by
  intro s t hst
  obtain ⟨agree, scopes, scopes', linked⟩ := h s t hst
  exact ⟨agree, scopes, scopes', hlink t, linked⟩

theorem withScope_eq (frame : Frame) (c : Stack) (m : Run α) (s : Store) :
    Run.withScope frame c m s = Result.mapStore Store.leave (m (s.enter frame c)) := by
  rw [Run.withScope]
  cases m (s.enter frame c) <;> rfl

theorem simulates_withScope (sim : Simulation allowed base R Link) {frame : Frame} {c : Stack}
    (hframe : frame.Within (allowed w)) (hnames : frame.names.Nodup) (hc : base w c) {m : Run α}
    {n : Traced α}
    (h : Simulates R Link ok w m n) :
    Simulates R Link ok w (Run.withScope frame c m) (Traced.withScope frame c n) := by
  intro s t hst
  have hin := sim.enter hst hframe hnames hc
  obtain ⟨agree, scopes, scopes', linked⟩ := h _ _ hin.1
  have hout : Matches R ok w (Result.mapStore Store.leave (m (s.enter frame c)))
      (Result.mapStore Store.leave (n (t.enter frame c)).2) ∧
      Link (Result.store (n (t.enter frame c)).2)
        ⟨.acted, (Result.store (n (t.enter frame c)).2).leave⟩ := by
    generalize m (s.enter frame c) = r at agree scopes
    generalize (n (t.enter frame c)).2 = r' at agree scopes'
    cases agree with
    | ok hw ha hst' =>
      have hleave := sim.leave hst hc hw hst' scopes scopes'
      exact ⟨.ok hw ha hleave.1, hleave.2⟩
    | error hw hst' =>
      have hleave := sim.leave hst hc hw hst' scopes scopes'
      exact ⟨.error hw hleave.1, hleave.2⟩
  constructor
  · rw [withScope_eq]
    exact hout.1
  · rw [withScope_eq, Result.store_mapStore]
    exact scopes.leave
  · change t.SameScopes (Result.store (Result.mapStore Store.leave (n (t.enter frame c)).2))
    rw [Result.store_mapStore]
    exact scopes'.leave
  · -- the moments end with the one at which the scope has been left
    refine ⟨hin.2, sim.linked_append linked ⟨?_, sim.link_refl _⟩⟩
    rw [Result.store_mapStore]
    exact hout.2

/-! ### Rules for actions -/

theorem quiet_bind (m : Run α) (k : α → Run β) :
    Traced.quiet (m >>= k) = Traced.quiet m >>= fun a => Traced.quiet (k a) := by
  funext s
  cases hm : m s with
  | ok a t =>
    have hquiet : (Traced.quiet m s).2 = .ok a t := hm
    rw [Traced.bind_of_ok hquiet, Traced.quiet, Run.bind_of_ok hm]
    rfl
  | error failure t =>
    have hquiet : (Traced.quiet m s).2 = .error failure t := hm
    rw [Traced.bind_of_error hquiet, Traced.quiet, Run.bind_of_error hm]
    rfl

theorem acts_pure (sim : Simulation allowed base R Link) {a : α} (h : ok w a) :
    Acts R Link ok w (pure a) := sim.simulates_pure h

theorem acts_throw (sim : Simulation allowed base R Link) (failure : Failure) :
    Acts R Link ok w (throw failure) := by
  intro s t hst
  exact ⟨.error le_rfl hst, .refl s, .refl t, sim.link_refl t⟩

theorem acts_bind (sim : Simulation allowed base R Link) {m : Run α} {k : α → Run β}
    (h : Acts R Link ok w m)
    (hk : ∀ w', w ≤ w' → ∀ a, ok w' a → Acts R Link ok₂ w' (k a)) :
    Acts R Link ok₂ w (m >>= k) := by
  unfold Acts
  rw [quiet_bind]
  exact sim.simulates_bind h hk

theorem simulates_act (sim : Simulation allowed base R Link) {m : Run α}
    (h : Acts R Link ok w m) : Simulates R Link ok w m (Traced.act m) := by
  intro s t hst
  obtain ⟨agree, scopes, scopes', linked⟩ := h s t hst
  exact ⟨agree, scopes, scopes', linked, sim.link_refl _⟩

theorem follows_quiet {m : Run α} {s t : Store} {r r' : Result α} (hs : m s = r) (ht : m t = r')
    (agree : Matches R ok w r r') (scopes : s.SameScopes (Result.store r))
    (scopes' : t.SameScopes (Result.store r')) (link : Link t ⟨.acted, Result.store r'⟩) :
    Follows R Link ok w m (Traced.quiet m) s t := by
  subst hs ht
  exact ⟨agree, scopes, scopes', link⟩

theorem follows_failure (sim : Simulation allowed base R Link) {m : Run α} {failure : Failure}
    {s t : Store} (hst : R w s t) (hs : m s = .error failure s) (ht : m t = .error failure t) :
    Follows R Link ok w m (Traced.quiet m) s t :=
  follows_quiet hs ht (.error le_rfl hst) (.refl s) (.refl t) (sim.link_refl t)

/-- A computation that only reads the store, and reads the same in both stores. -/
theorem acts_reading (sim : Simulation allowed base R Link) {m : Run α}
    (h : ∀ s t, R w s t → ∃ x, m s = Run.ofExcept x s ∧ m t = Run.ofExcept x t ∧
      ∀ a, x = .ok a → ∃ w', w ≤ w' ∧ ok w' a ∧ R w' s t) : Acts R Link ok w m := by
  intro s t hst
  obtain ⟨x, hs, ht, hx⟩ := h s t hst
  cases x with
  | error failure => exact sim.follows_failure hst hs ht
  | ok a =>
    obtain ⟨w', hw, ha, hst'⟩ := hx a rfl
    exact follows_quiet hs ht (.ok hw ha hst') (.refl s) (.refl t) (sim.link_refl t)

theorem acts_ofExcept (sim : Simulation allowed base R Link) {x : Except Failure α}
    (h : ∀ a, x = .ok a → ok w a) : Acts R Link ok w (Run.ofExcept x) :=
  sim.acts_reading fun _ _ hst => ⟨x, rfl, rfl, fun a ha => ⟨w, le_rfl, h a ha, hst⟩⟩

theorem simulates_ofExcept (sim : Simulation allowed base R Link) (x : Except Failure α) :
    Simulates R Link anything w (Run.ofExcept x) (Traced.act (Run.ofExcept x)) :=
  sim.simulates_act (sim.acts_ofExcept fun _ _ => trivial)

theorem acts_lookup (sim : Simulation allowed base R Link) (name : Text) :
    Acts R Link (Holding allowed) w (Run.lookup name) := by
  apply sim.acts_reading
  intro s t hst
  have hs := Run.lookup_eq name s
  have ht := Run.lookup_eq name t
  rw [← sim.lookup_eq hst name] at ht
  cases hv : s.lookup? name with
  | some v =>
    rw [hv] at hs ht
    refine ⟨.ok v, hs, ht, ?_⟩
    rintro u hu
    cases hu
    exact ⟨w, le_rfl, sim.lookup_within hst hv, hst⟩
  | none =>
    rw [hv] at hs ht
    exact ⟨.error (.error (.unboundName name)), hs, ht, by simp⟩

theorem acts_display (sim : Simulation allowed base R Link) (room : Nat) (v : Value) :
    Acts R Link anything w (Run.display room v) := by
  apply sim.acts_reading
  intro s t hst
  refine ⟨v.write s.procedures room, rfl, ?_, fun _ _ => ⟨w, le_rfl, trivial, hst⟩⟩
  rw [Run.display_eq, ← sim.procedures_eq hst]

theorem acts_procedure (sim : Simulation allowed base R Link) {id : ProcId} (h : allowed w id) :
    Acts R Link (fun w p => p.code.Within (allowed w) (base w)) w (Run.procedure id) := by
  apply sim.acts_reading
  intro s t hst
  have hp := sim.procedures_eq hst
  refine ⟨.ok (s.procedures.get id), rfl, by rw [hp]; rfl, ?_⟩
  rintro p hp
  cases hp
  obtain ⟨w', hw, hst', hcode⟩ := sim.code_within hst h
  exact ⟨w', hw, hcode, hst'⟩

/-- A computation that changes both stores in the same way. -/
theorem follows_change {m : Run α} {a : α} {s t s' t' : Store} (hs : m s = .ok a s')
    (ht : m t = .ok a t') (hw : w ≤ w') (ha : ok w' a) (hst : R w' s' t')
    (scopes : s.SameScopes s') (scopes' : t.SameScopes t') (link : Link t ⟨.acted, t'⟩) :
    Follows R Link ok w m (Traced.quiet m) s t :=
  follows_quiet hs ht (.ok hw ha hst) scopes scopes' link

theorem acts_print (sim : Simulation allowed base R Link) (text : Text) :
    Acts R Link anything w (Run.print text) := by
  by_cases htext : text.Encodable
  · intro s t hst
    obtain ⟨hst', hlink⟩ := sim.print hst text
    exact follows_change (Run.print_of_encodable htext s) (Run.print_of_encodable htext t) le_rfl
      trivial hst' ⟨rfl, rfl⟩ ⟨rfl, rfl⟩ hlink
  · rw [Run.print_of_not_encodable htext]
    exact sim.acts_throw _

theorem acts_log (sim : Simulation allowed base R Link) (logger : Text) (severity : Severity)
    (message : Text) : Acts R Link anything w (Run.log logger severity message) := by
  intro s t hst
  obtain ⟨hst', hlink⟩ := sim.log hst logger severity message
  exact follows_change rfl rfl le_rfl trivial hst' ⟨rfl, rfl⟩ ⟨rfl, rfl⟩ hlink

/-- A computation that makes a procedure. -/
theorem follows_make (sim : Simulation allowed base R Link) {m : Run Value} {p : Procedure}
    {s t : Store} (hst : R w s t) (hmade : p.MadeIn (allowed w) s)
    (hcode : p.code.Within (allowed w) (fun c => base w c ∨ c = s.stack))
    (hs : m s = Run.make p s) (ht : m t = Run.make p t) :
    Follows R Link (Holding allowed) w m (Traced.quiet m) s t := by
  obtain ⟨w', hw, hst', hid, hlink⟩ := sim.allocate hst hmade hcode
  have ht' : Run.make p t = .ok (.proc s.procedures.size) (t.allocate p) := by
    rw [sim.procedures_eq hst]
    rfl
  exact follows_change hs (ht.trans ht') hw ((Value.within_proc _).mpr hid) hst' ⟨rfl, rfl⟩
    ⟨rfl, rfl⟩ hlink

theorem acts_makePrimitive (sim : Simulation allowed base R Link) (p : Primitive) :
    Acts R Link (Holding allowed) w (Run.make (.ofPrimitive p)) := by
  intro s t hst
  exact sim.follows_make hst (.primitive p) (Code.within_primitive p) rfl rfl

/-- Making a closure captures the present stack. -/
theorem acts_closure (sim : Simulation allowed base R Link) (evaluates : Bool) (params : Params)
    {body : Value} (hbody : body.Within (allowed w)) :
    Acts R Link (Holding allowed) w (do
      let captured ← Run.snapshot
      Run.make (.closure evaluates params body captured)) := by
  intro s t hst
  have hcode : (Procedure.closure evaluates params body s.stack).code.Within (allowed w)
      (fun c => base w c ∨ c = s.stack) := Code.within_closure.mpr ⟨hbody, .inr rfl⟩
  refine sim.follows_make hst (.closure evaluates params hbody) hcode rfl ?_
  rw [sim.stack_eq hst]
  rfl

/-- The parts of a composition are found in the table of procedures. -/
theorem acts_compose (sim : Simulation allowed base R Link) {outer inner : ProcId}
    (ho : allowed w outer) (hi : allowed w inner) :
    Acts R Link (Holding allowed) w (do
      let f ← Run.procedure outer
      let g ← Run.procedure inner
      Run.make (f.compose g)) := by
  intro s t hst
  obtain ⟨w₁, hw₁, hst₁, hf⟩ := sim.code_within hst ho
  obtain ⟨w₂, hw₂, hst₂, hg⟩ := sim.code_within hst₁ (sim.allowed_mono hw₁ _ hi)
  have hw := hw₁.trans hw₂
  have hf' := hf.mono (sim.allowed_mono hw₂) (sim.base_mono hw₂)
  have hcode : ((s.procedures.get outer).compose (s.procedures.get inner)).code.Within
      (allowed w₂) (fun c => base w₂ c ∨ c = s.stack) :=
    (Code.within_composition.mpr ⟨hf', hg⟩).mono (fun _ h => h) fun _ h => .inl h
  have hmade : Procedure.MadeIn (allowed w₂) s
      ((s.procedures.get outer).compose (s.procedures.get inner)) :=
    .composition (sim.allowed_mono hw _ ho) (sim.allowed_mono hw _ hi)
  apply Follows.weaken _ hw
  apply sim.follows_make hst₂ hmade hcode
  · rfl
  · rw [sim.procedures_eq hst]
    rfl

theorem bindInnermost_eq (name : Text) (v : Value) (s : Store) :
    Run.bindInnermost name v s = match s.stack with
      | [] => .error (.error .emptyStack) s
      | id :: _ => .ok () (s.bindAt id name v) := by
  obtain ⟨_, _, stack, _, _, _⟩ := s
  cases stack <;> rfl

theorem bindParent_eq (name : Text) (v : Value) (s : Store) :
    Run.bindParent name v s = match s.stack with
      | [] => .error (.error .emptyStack) s
      | [_] => .error (.error .noParentScope) s
      | _ :: id :: _ => .ok () (s.bindAt id name v) := by
  obtain ⟨_, _, stack, _, _, _⟩ := s
  rcases stack with _ | ⟨_, _ | ⟨_, _⟩⟩ <;> rfl

theorem acts_bindInnermost (sim : Simulation allowed base R Link) (name : Text) {v : Value}
    (hv : v.Within (allowed w)) : Acts R Link anything w (Run.bindInnermost name v) := by
  intro s t hst
  have hs := bindInnermost_eq name v s
  have ht := bindInnermost_eq name v t
  rw [← sim.stack_eq hst] at ht
  cases hstack : s.stack with
  | nil =>
    rw [hstack] at hs ht
    exact sim.follows_failure hst hs ht
  | cons id rest =>
    rw [hstack] at hs ht
    have hid : id ∈ s.stack := by simp [hstack]
    obtain ⟨hst', hlink⟩ := sim.bindAt hst hid name hv
    exact follows_change hs ht le_rfl trivial hst' ⟨rfl, rfl⟩ ⟨rfl, rfl⟩ hlink

theorem acts_bindParent (sim : Simulation allowed base R Link) (name : Text) {v : Value}
    (hv : v.Within (allowed w)) : Acts R Link anything w (Run.bindParent name v) := by
  intro s t hst
  have hs := bindParent_eq name v s
  have ht := bindParent_eq name v t
  rw [← sim.stack_eq hst] at ht
  rcases hstack : s.stack with _ | ⟨inner, _ | ⟨id, rest⟩⟩
  · rw [hstack] at hs ht
    exact sim.follows_failure hst hs ht
  · rw [hstack] at hs ht
    exact sim.follows_failure hst hs ht
  · rw [hstack] at hs ht
    have hid : id ∈ s.stack := by simp [hstack]
    obtain ⟨hst', hlink⟩ := sim.bindAt hst hid name hv
    exact follows_change hs ht le_rfl trivial hst' ⟨rfl, rfl⟩ ⟨rfl, rfl⟩ hlink

theorem acts_fail (sim : Simulation allowed base R Link) (e : Error) :
    Acts R Link ok w (Run.fail e) := sim.acts_throw _

/-- Failing with an error that shows a value. -/
theorem acts_failShowing (sim : Simulation allowed base R Link) (room : Nat) (v : Value)
    (e : Text → Error) :
    Acts R Link ok w (do
      let shown ← Run.display room v
      Run.fail (e shown)) :=
  sim.acts_bind (sim.acts_display room v) fun _ _ _ _ => sim.acts_fail _

theorem acts_check (sim : Simulation allowed base R Link) (arity : Arity) (name : Text)
    (count : Nat) : Acts R Link anything w (arity.check name count) := by
  unfold Arity.check
  split
  · exact sim.acts_pure trivial
  · split
    · exact sim.acts_pure trivial
    · exact sim.acts_fail _

theorem acts_refuseCall (sim : Simulation allowed base R Link) (room : Nat) (v : Value) :
    Acts R Link ok w (Run.refuseCall room v) :=
  sim.acts_failShowing room v _

end Simulation

end RationalLisp
