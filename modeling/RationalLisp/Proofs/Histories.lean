import RationalLisp.Proofs.StackDiscipline

/-!
# Histories of sessions

What a simulation says about single computations it says about whole sessions: each moment in the
history of a session is linked to the one before it.

## Implementation notes

A session runs from a single store, so a simulation is used with that store on both sides. This
needs a world for every store that may come up between two steps.
-/

namespace RationalLisp

/-- What links carry over from earlier stores holds between any two moments. -/
theorem Linked.pairwise {Link : Store → Moment → Prop} {P : Store → Store → Prop} {s t : Store}
    {ms : List Moment} (h : Linked Link s ms t) (hrefl : ∀ s, P s s)
    (hlink : ∀ {r s m}, Link s m → P r s → P r m.store) :
    ms.Pairwise fun earlier later => P earlier.store later.store := by
  induction ms generalizing s with
  | nil => exact .nil
  | cons m ms ih =>
    have hlater := h.2.forall_mem (P := P m.store) hlink (hrefl m.store)
    exact .cons hlater.1 (ih h.2)

namespace Session

/-- The expressions that are given to a session hold only procedures that are known when their turn
comes. -/
def Given (known : Store → ProcId → Prop) : List (Host × Step) → Store → Prop
  | [], _ => True
  | (host, step) :: rest, s =>
    (∀ e, step = .evaluate e → e.Within (known s)) ∧
      Given known rest (Result.store (step.run host s))

theorem given_of_forall {known : Store → ProcId → Prop} (h : ∀ s id, known s id)
    (steps : List (Host × Step)) (s : Store) : Given known steps s := by
  induction steps generalizing s with
  | nil => trivial
  | cons step steps ih => exact ⟨fun _ _ id _ => h s id, ih _⟩

theorem tracedStart_of_register {host : Host} {prelude : Bool} {s t : Store}
    (h : Run.register s = .ok () t) : tracedStart host prelude s =
      (⟨.acted, t⟩ :: (tracedOpening host prelude t).1, (tracedOpening host prelude t).2) := by
  have hact : Traced.act Run.register s = ([⟨.acted, t⟩], .ok () t) := by
    rw [Traced.act, h]
    rfl
  rw [tracedStart, Traced.bind_of_ok (congrArg Prod.snd hact), hact]
  rfl

end Session

theorem Matches.store {W α : Type} [Preorder W] {R : W → Store → Store → Prop}
    {ok : W → α → Prop} {w : W} {r r' : Result α} (h : Matches R ok w r r') :
    ∃ w', R w' (Result.store r) (Result.store r') := by
  cases h with
  | ok _ _ hst => exact ⟨_, hst⟩
  | error _ hst => exact ⟨_, hst⟩

namespace Simulation

open Session

variable {W : Type} [Preorder W] {allowed : W → ProcId → Prop} {base : W → Stack → Prop}
variable {R : W → Store → Store → Prop} {Link : Store → Moment → Prop}
variable {I : Store → Prop} (world : Store → W)

/-- A computation that follows its traced counterpart from a single store is linked all the way to
its end, which is again a store that a run may start from. -/
theorem linked_of_simulates {α : Type} {ok : W → α → Prop} {m : Run α} {n : Traced α} {s : Store}
    (hin : ∀ s, I s → R (world s) s s) (hout : ∀ {w s t}, R w s t → I s)
    (h : Simulates R Link ok (world s) m n) (hn : (n s).2 = m s) (hs : I s) :
    Linked Link s (n s).1 (Result.store (m s)) ∧ I (Result.store (m s)) := by
  obtain ⟨agree, -, -, linked⟩ := h s s (hin s hs)
  obtain ⟨w, hw⟩ := agree.store
  rw [hn] at linked
  exact ⟨linked, hout hw⟩

/-- The moments of some steps are linked. -/
theorem linked_moments (sim : Simulation allowed base R Link)
    (hforms : ∀ w f, allowed w (Store.formId f)) (hin : ∀ s, I s → R (world s) s s)
    (hout : ∀ {w s t}, R w s t → I s) {steps : List (Host × Step)} {s : Store} (hs : I s)
    (hgiven : Given (fun s => allowed (world s)) steps s) :
    Linked Link s (moments steps s) (after steps s) := by
  induction steps generalizing s with
  | nil => exact sim.link_refl s
  | cons hostStep rest ih =>
    obtain ⟨host, step⟩ := hostStep
    obtain ⟨hstep, hrest⟩ := hgiven
    obtain ⟨linked, hdone⟩ := linked_of_simulates world hin hout
      (sim.simulates_step hforms host step hstep) (step.traced_snd host s) hs
    exact sim.linked_append linked ⟨sim.link_refl _, ih hdone hrest⟩

/-- The moments of a session are linked from the store on in which its primitives are bound. -/
theorem linked_history (sim : Simulation allowed base R Link)
    (hforms : ∀ w f, allowed w (Store.formId f)) (hin : ∀ s, I s → R (world s) s s)
    (hout : ∀ {w s t}, R w s t → I s) (host : Host) (prelude : Bool) {journal : Journal}
    {steps : List (Host × Step)} {s registered : Store}
    (hregister : Run.register (.initial journal) = .ok () registered) (hregistered : I registered)
    (hlink : Link s ⟨.acted, registered⟩)
    (hgiven : Given (fun s => allowed (world s)) steps
      (Result.store (start host prelude (.initial journal)))) :
    ∃ t, Linked Link s (history host prelude journal steps) t := by
  rw [start_of_register hregister] at hgiven
  have hopening : (tracedOpening host prelude registered).2 = opening host prelude registered :=
    snd_eq_of_identity (identity.simulates_opening host prelude) registered
  obtain ⟨linked, hopened⟩ := linked_of_simulates world hin hout
    (sim.simulates_opening host prelude) hopening hregistered
  have hmoments := sim.linked_moments world hforms hin hout hopened hgiven
  rw [history, start_of_register hregister, tracedStart_of_register hregister]
  exact ⟨_, hlink, sim.linked_append linked ⟨sim.link_refl _, hmoments⟩⟩

end Simulation

end RationalLisp
