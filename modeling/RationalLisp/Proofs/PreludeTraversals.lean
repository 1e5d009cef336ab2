import RationalLisp.Proofs.Agreement
import RationalLisp.Proofs.Detachment
import RationalLisp.Proofs.PreludeDefinitions

/-!
# The traversals of the prelude

`map` and `foldl` walk down a list and apply a procedure to its elements. Each element is the
business of a call of their own, and the procedure is applied from inside the scope of that call,
between the frames of the calls before it. Still all comes to the same as running the procedure on
the elements in turn, from the place where the traversal was called.

## Implementation notes

A call of a traversal adds the frame of its scope to the store, and nothing else is left of it. The
description of a traversal (`Traversal.inTurn`) adds the same frames, so that the stores can be
compared as they are.

The procedure may do what it likes to the store, except for binding the global names again that the
traversals are written with. What is left for every application is that the frame of the scope
around it stays as it is, and this is so because no closure has captured that frame.
-/

namespace RationalLisp

open Store Run

/-- A procedure of the prelude that applies a procedure to the elements of a list. It carries
something along, from one application to the next. -/
structure Traversal (C : Type) where
  definition : Definition
  /-- The operands of a call: the procedure, what is carried along, and the elements. -/
  args : Value → C → List Value → List Value
  /-- The operands with which the procedure is applied to an element. -/
  application : C → Value → List Value
  /-- What is carried along after an application. -/
  next : C → Value → C
  /-- What a call comes to, given the results of the applications. -/
  answer : C → List Value → Value

namespace Traversal

variable {C : Type} (T : Traversal C)

/-- The frame of a call. -/
def frame (f : Value) (carried : C) (xs : List Value) : Frame :=
  (Params.ofNames T.definition.params).bind (T.args f carried xs)

/-- Run a procedure on the elements, one after the other, and list the results. -/
def inTurn (run : List Value → Run Value) (f : Value) : C → List Value → Run (List Value)
  | carried, [] => do
    addFrame (T.frame f carried [])
    return []
  | carried, x :: xs => do
    addFrame (T.frame f carried (x :: xs))
    let v ← run (T.application carried x)
    return v :: (← inTurn run f (T.next carried v) xs)

section InTurn

variable {run : List Value → Run Value} {f x v : Value} {carried : C} {xs : List Value}
variable {s t : Store}

/-- After an application that has a value, the next element has its turn. -/
theorem inTurn_of_ok (h : run (T.application carried x)
    (s.addFrame (T.frame f carried (x :: xs))) = .ok v t) :
    T.inTurn run f carried (x :: xs) s =
      (T.inTurn run f (T.next carried v) xs >>= fun vs => pure (v :: vs)) t :=
  (bind_of_ok rfl).trans (bind_of_ok h)

/-- An application that fails is the last one. -/
theorem inTurn_of_error {failure : Failure} (h : run (T.application carried x)
    (s.addFrame (T.frame f carried (x :: xs))) = .error failure t) :
    T.inTurn run f carried (x :: xs) s = .error failure t :=
  (bind_of_ok rfl).trans (bind_of_error h)

end InTurn

/-- No application that has a value binds one of the names again in the global frame. -/
def Spares (names : List Text) (run : Nat → List Value → Run Value) (f : Value) :
    C → List Value → Store → Prop
  | _, [], _ => True
  | carried, x :: xs, s => ∀ v t,
    Ends (fun depth => run depth (T.application carried x))
      (s.addFrame (T.frame f carried (x :: xs))) (.ok v t) →
    (∀ name ∈ names, (t.frame 0).get? name = (s.frame 0).get? name) ∧
      Spares names run f (T.next carried v) xs t

end Traversal

namespace Prelude

/-- The primitives that the traversals are written with. -/
def traversalPrimitives : List Primitive :=
  [.form .quote, .form .choose, .builtin (.test .null), .builtin .cons, .builtin .car,
    .builtin .cdr]

/-- The global names on which the traversals rely. -/
def traversalNames : List Text :=
  traversalPrimitives.map Primitive.name ++ [map, foldl].map Definition.name

/-- `map` lists the results. It carries nothing along. -/
def mapping : Traversal Unit where
  definition := map
  args f _ xs := [f, .ofList xs]
  application _ x := [x]
  next _ _ := ()
  answer _ results := .ofList results

/-- `foldl` carries the latest result along. -/
def folding : Traversal Value where
  definition := foldl
  args f latest xs := [f, latest, .ofList xs]
  application latest x := [latest, x]
  next _ v := v
  answer first results := results.getLastD first

end Prelude

open Prelude

/-! ### In the scope of a call -/

/-- The state while the body of a traversal is evaluated in the scope of a call. -/
structure InCall (frame : Frame) (u : Store) : Prop where
  offers : u.Offers traversalPrimitives [map, foldl]
  innermost : ∃ id, u.stack = [id, 0] ∧ u.frame id = frame

namespace InCall

variable {host : Host} {frame : Frame} {s u : Store} {name : Text} {v : Value}

theorem enter (h : s.Offers traversalPrimitives [map, foldl]) (frame : Frame) :
    InCall frame (s.enter frame [0]) :=
  ⟨h.enter frame [0], s.frames.size, rfl, s.frame_enter_size frame [0]⟩

theorem lookup (h : InCall frame u) (hframe : frame.get? name = some v) :
    u.lookup? name = some v := by
  obtain ⟨id, hstack, rfl⟩ := h.innermost
  rw [lookup?, hstack, lookupIn, hframe]

theorem param (h : InCall frame u) (hframe : frame.get? name = some v) :
    Evaluates host (.atom name) u (.ok v u) := evaluates_atom (h.lookup hframe)

theorem standsFor (h : InCall frame u) {p : Procedure} (hname : u.Defines name p)
    (hframe : frame.get? name = none) : u.StandsFor name p := by
  obtain ⟨id, hstack, rfl⟩ := h.innermost
  obtain ⟨q, -, hget, hp⟩ := hname
  refine ⟨q, ?_, hp⟩
  rw [lookup?, hstack, lookupIn, hframe, lookupIn, hget]

theorem provides (h : InCall frame u) (p : Primitive) (hp : p ∈ traversalPrimitives)
    (hframe : frame.get? p.name = none) : u.Provides p.name p :=
  h.standsFor (h.offers.primitive p hp) hframe

theorem calls (h : InCall frame u) (d : Definition) (hd : d ∈ [map, foldl])
    (hframe : frame.get? d.name = none) : u.StandsFor d.name d.procedure :=
  h.standsFor (h.offers.definition d hd) hframe

/-- The test whether the elements have come to their end. -/
theorem null (h : InCall frame u) (xs : List Value)
    (hframe : frame.get? "null?" = none) (hxs : frame.get? "xs" = some (.ofList xs)) :
    Evaluates host (.call "null?" [.atom "xs"]) u (.ok (.bool xs.isEmpty) u) := by
  have htest : ∀ room, (Builtin.test .null).run room [.ofList xs] u = .ok (.bool xs.isEmpty) u := by
    intro room
    cases xs <;> rfl
  exact evaluates_builtin (h.provides (.builtin (.test .null)) (by decide) hframe) rfl
    (evaluatesAll_one (h.param hxs)) (ends_of_eq htest)

theorem car (h : InCall frame u) {x : Value} {xs : List Value}
    (hframe : frame.get? "car" = none) (hxs : frame.get? "xs" = some (.ofList (x :: xs))) :
    Evaluates host (.call "car" [.atom "xs"]) u (.ok x u) :=
  evaluates_builtin (h.provides (.builtin .car) (by decide) hframe) rfl
    (evaluatesAll_one (h.param hxs)) (ends_of_eq fun _ => rfl)

theorem cdr (h : InCall frame u) {x : Value} {xs : List Value}
    (hframe : frame.get? "cdr" = none) (hxs : frame.get? "xs" = some (.ofList (x :: xs))) :
    Evaluates host (.call "cdr" [.atom "xs"]) u (.ok (.ofList xs) u) :=
  evaluates_builtin (h.provides (.builtin .cdr) (by decide) hframe) rfl
    (evaluatesAll_one (h.param hxs)) (ends_of_eq fun _ => rfl)

end InCall

/-! ### The steps of a traversal -/

namespace Traversal

variable {C : Type} (T : Traversal C)

/-- How the body of a traversal goes on: at the end of the elements it has its answer; before, it
applies the procedure to the first element, runs itself on the others, and combines the result and
the answer. -/
structure Lawful (host : Host) (combine : Value → Value → Value) : Prop where
  stop : ∀ {f carried u}, InCall (T.frame (.proc f) carried []) u →
    Evaluates host T.definition.body u (.ok (T.answer carried []) u)
  step : ∀ {f p carried x xs u}, InCall (T.frame (.proc f) carried (x :: xs)) u →
    u.procedures.get f = p → p.evaluatesOperands = true →
    p.arity.accepts (T.application carried x).length = true →
    (∀ v t, Ends (fun depth => p.code.run host (inner host depth) (T.application carried x)) u
      (.ok v t) → InCall (T.frame (.proc f) carried (x :: xs)) t) →
    SameEnds (fun depth => eval host depth T.definition.body)
      (fun depth => p.code.run host (inner host depth) (T.application carried x) >>= fun v =>
        T.definition.procedure.code.run host (inner host depth)
          (T.args (.proc f) (T.next carried v) xs) >>= fun r => pure (combine v r)) u
  answer_cons : ∀ carried v vs,
    T.answer carried (v :: vs) = combine v (T.answer (T.next carried v) vs)

end Traversal

namespace Prelude

variable {host : Host} {u : Store} {f : ProcId} {p : Procedure}

/-- In the scope of a call, the procedure can be applied by the name of its parameter. -/
theorem applied {frame : Frame} (hu : InCall frame u) (hf : frame.get? "f" = some (.proc f))
    (hget : u.procedures.get f = p) (hpolicy : p.evaluatesOperands = true)
    {operands args : List Value} (hcount : p.arity.accepts args.length = true)
    (hoperands : EvaluatesAll host operands u (.ok args u)) :
    SameEnds (fun depth => eval host depth (.call "f" operands))
      (fun depth => p.code.run host (inner host depth) args) u := by
  rw [length_of_evaluatesAll hoperands] at hcount
  exact .call_evaluated ⟨f, hu.lookup hf, hget⟩ hcount hpolicy hoperands

theorem lawful_mapping (host : Host) : mapping.Lawful host .cell where
  stop := by
    intro f carried u hu
    have hnull : Evaluates host (.call "null?" [.atom "xs"]) u (.ok (.bool true) u) :=
      hu.null [] rfl rfl
    exact evaluates_if (hu.provides (.form .choose) (by decide) rfl) hnull
      (evaluates_quoted (hu.provides (.form .quote) (by decide) rfl) .null)
  step := by
    intro f p carried x xs u hu hget hpolicy hcount hafter
    have hnull : Evaluates host (.call "null?" [.atom "xs"]) u (.ok (.bool false) u) :=
      hu.null (x :: xs) rfl rfl
    have hcar : Evaluates host (.call "car" [.atom "xs"]) u (.ok x u) := hu.car rfl rfl
    have happlied := applied hu rfl hget hpolicy hcount (evaluatesAll_one hcar)
    refine (SameEnds.choose (hu.provides (.form .choose) (by decide) rfl) hnull).trans ?_
    refine (SameEnds.two (hu.provides (.builtin .cons) (by decide) rfl) rfl).trans ?_
    refine .bind (steady_eval host _) (steady_code host p.code _) happlied fun v t hends => ?_
    -- the rest is done in the scope of the call as it is after the application
    have ht : InCall (mapping.frame (.proc f) carried (x :: xs)) t :=
      hafter v t ((happlied _ (Result.not_cutOff_ok v t)).mp hends)
    refine .bind (steady_eval host _) (steady_code host map.procedure.code _) ?_
      fun r t' _ => .refl _ t'
    exact .call_evaluated (ht.calls map (by decide) rfl) rfl rfl
      (evaluatesAll_cons (ht.param rfl) (evaluatesAll_one (ht.cdr rfl rfl)))
  answer_cons _ _ _ := rfl

theorem lawful_folding (host : Host) : folding.Lawful host fun _ r => r where
  stop := by
    intro f carried u hu
    have hnull : Evaluates host (.call "null?" [.atom "xs"]) u (.ok (.bool true) u) :=
      hu.null [] rfl rfl
    exact evaluates_if (hu.provides (.form .choose) (by decide) rfl) hnull (hu.param rfl)
  step := by
    intro f p latest x xs u hu hget hpolicy hcount hafter
    have hnull : Evaluates host (.call "null?" [.atom "xs"]) u (.ok (.bool false) u) :=
      hu.null (x :: xs) rfl rfl
    have hacc : Evaluates host (.atom "acc") u (.ok latest u) := hu.param rfl
    have happlied := applied hu rfl hget hpolicy hcount
      (evaluatesAll_cons hacc (evaluatesAll_one (hu.car rfl rfl)))
    refine (SameEnds.choose (hu.provides (.form .choose) (by decide) rfl) hnull).trans ?_
    refine (SameEnds.call (hu.calls foldl (by decide) rfl) rfl).trans ?_
    have hperform : ∀ depth, foldl.procedure.perform host (inner host depth)
        [.atom "f", .call "f" [.atom "acc", .call "car" [.atom "xs"]], .call "cdr" [.atom "xs"]] =
        (eval host depth (.atom "f") >>= fun g =>
          eval host depth (.call "f" [.atom "acc", .call "car" [.atom "xs"]]) >>= fun v =>
            eval host depth (.call "cdr" [.atom "xs"]) >>= fun rest =>
              foldl.procedure.code.run host (inner host depth) [g, v, rest]) := by
      intro depth
      rw [Procedure.perform_of_evaluates host _ rfl]
      simp only [evalAll, bind_assoc, pure_bind]
      rfl
    simp only [hperform]
    refine (SameEnds.bind_of_ok (hu.param rfl)).trans ?_
    refine .bind ?_ ?_ happlied fun v t hends => ?_
    · exact steady_eval host _
    · exact steady_code host p.code _
    have ht : InCall (folding.frame (.proc f) latest (x :: xs)) t :=
      hafter v t ((happlied _ (Result.not_cutOff_ok v t)).mp hends)
    refine (SameEnds.bind_of_ok (ht.cdr rfl rfl)).trans (.of_eq fun depth => ?_)
    rw [bind_pure]
    rfl
  answer_cons latest v vs := (List.getLastD_cons : (v :: vs).getLastD latest = vs.getLastD v)

end Prelude

/-! ### Whole traversals -/

theorem Builtin.frames_run (b : Builtin) {room : Nat} {args : List Value} {v : Value} {s t : Store}
    (h : b.run room args s = .ok v t) : t.frames = s.frames := by
  obtain ⟨o, -, hrun⟩ := b.settled_run room args s.procedures
  rw [hrun s rfl] at h
  cases o <;> cases h <;> rfl

/-- The state in which a traversal can be run with a procedure. -/
structure Ready (f : ProcId) (p : Procedure) (s : Store) : Prop where
  offers : s.Offers traversalPrimitives [map, foldl]
  there : f < s.procedures.size
  get : s.procedures.get f = p
  tree : ∃ parents, s.Tree parents

namespace Ready

variable {f : ProcId} {p : Procedure} {s t : Store}

/-- The traversals have captured the global frame. -/
theorem enter (h : Ready f p s) (frame : Frame) : Ready f p (s.enter frame [0]) where
  offers := h.offers.enter frame [0]
  there := h.there
  get := h.get
  tree := by
    obtain ⟨id, -, -, hget⟩ := h.offers.definition map (by decide)
    have hmem : [0] ∈ (s.procedures.get id).code.captures := by
      rw [hget]
      exact List.mem_singleton_self [0]
    obtain ⟨parents, htree⟩ := h.tree
    obtain ⟨parents', -, htree'⟩ := htree.change (.enter s frame (mem_captures_of_get hmem))
    exact ⟨parents', htree'⟩

/-- After an application that has bound none of the names again, everything is ready for the next
one. -/
theorem after (h : Ready f p s) {host : Host} {depth : Nat} {args : List Value}
    (ht : Result.store (p.code.run host (inner host depth) args s) = t)
    (hnames : ∀ name ∈ traversalNames, (t.frame 0).get? name = (s.frame 0).get? name) :
    Ready f p t := by
  subst ht
  have hgrows := grows_code host depth args p.code s
  refine ⟨h.offers.grows hgrows (List.Subset.refl _) (List.Subset.refl _) hnames, ?_, ?_, ?_⟩
  · exact h.there.trans_le hgrows.procedures.length_le
  · rw [Procedures.get_of_prefix hgrows.procedures h.there, h.get]
  · obtain ⟨parents, htree⟩ := h.tree
    have hchanges := changes_code host depth args s f
    rw [h.get] at hchanges
    obtain ⟨parents', -, htree'⟩ := htree.changes hchanges
    exact ⟨parents', htree'⟩

/-- An application in the scope of a call leads to a store in which the scope is as it was. -/
theorem after_inCall (h : Ready f p s) (hcode : p.code.callSiteIndependent = true) {host : Host}
    {depth : Nat} {frame : Frame} {args : List Value}
    (ht : Result.store (p.code.run host (inner host depth) args (s.enter frame [0])) = t)
    (hready : Ready f p t) : InCall frame t := by
  have hframe : (s.enter frame [0]).frame s.frames.size = frame := s.frame_enter_size frame [0]
  have hnew : s.frames.size < (s.enter frame [0]).frames.size := by
    rw [size_enter]
    exact Nat.lt_succ_self _
  have hfresh : ∀ c ∈ (s.enter frame [0]).captures, s.frames.size ∉ c := by
    obtain ⟨parents, htree⟩ := h.tree
    intro c hc hmem
    have hchain : c ∈ s.chains := List.mem_cons_of_mem _ (List.mem_append_right _ hc)
    exact absurd (htree.bounded c hchain _ hmem) (Nat.lt_irrefl _)
  have hget : (s.enter frame [0]).procedures.get f = p := h.get
  have hkept := frame_code host depth args (s.enter frame [0]) f (by rw [hget]; exact hcode) hnew
    hfresh
  rw [hget, ht, hframe] at hkept
  have hscopes := (detached_code host depth hcode args).scopes (s.enter frame [0])
  rw [ht] at hscopes
  exact ⟨hready.offers, s.frames.size, hscopes.stack, hkept⟩

end Ready

namespace Traversal

variable {C : Type} (T : Traversal C) {run : Nat → List Value → Run Value} {f : Value}

theorem detached_inTurn {run : List Value → Run Value} (hrun : ∀ args, Detached (run args))
    (f : Value) (carried : C) (xs : List Value) : Detached (T.inTurn run f carried xs) := by
  induction xs generalizing carried with
  | nil => exact detached_bind (detached_addFrame _) fun _ => detached_pure _
  | cons x xs ih =>
    refine detached_bind (detached_addFrame _) fun _ => detached_bind (hrun _) fun v => ?_
    exact detached_bind (ih _) fun _ => detached_pure _

theorem steady_inTurn (hrun : ∀ args, Steady fun depth => run depth args) (f : Value) (carried : C)
    (xs : List Value) : Steady fun depth => T.inTurn (run depth) f carried xs := by
  have hadd : ∀ frame, Steady fun _ => addFrame frame :=
    fun _ _ _ _ => Prints.prolongs fun _ => List.prefix_rfl
  induction xs generalizing carried with
  | nil => exact steady_bind (hadd _) fun _ => steady_pure _
  | cons x xs ih =>
    refine steady_bind (hadd _) fun _ => steady_bind (hrun _) fun v => ?_
    exact steady_bind (ih _) fun _ => steady_pure _

/-- It makes no difference from where the procedure is applied. -/
theorem Spares.calledFrom {T : Traversal C} (hrun : ∀ depth args, Placeless (run depth args))
    {names : List Text} {carried : C} {xs : List Value} {s : Store}
    (h : T.Spares names run f carried xs s) (stack : Stack) (pending : List Stack) :
    T.Spares names run f carried xs (s.calledFrom stack pending) := by
  induction xs generalizing carried s stack pending with
  | nil => trivial
  | cons x xs ih =>
    intro v t hends
    have hback := hends.calledFrom (fun depth => hrun depth _) s.stack s.pending
    obtain ⟨hnames, hrest⟩ := h v _ hback
    exact ⟨hnames, ih hrest t.stack t.pending⟩

/-- Builtins bind no names. -/
theorem spares_builtin {b : Builtin} (hrun : ∀ depth args, run depth args = b.run depth args)
    (names : List Text) (f : Value) (carried : C) (xs : List Value) {s : Store}
    (hs : 0 < s.frames.size) : T.Spares names run f carried xs s := by
  induction xs generalizing carried s with
  | nil => trivial
  | cons x xs ih =>
    intro v t hends
    obtain ⟨least, hends⟩ := hends
    have hb := (congrFun (hrun least _) _).symm.trans (hends least le_rfl)
    have hframes : t.frames = (s.addFrame (T.frame f carried (x :: xs))).frames := b.frames_run hb
    have hglobal : t.frame 0 = s.frame 0 := by
      -- the new frame is as it would be in a scope
      rw [Store.frame, hframes]
      exact frame_enter_of_ne (c := []) hs.ne
    refine ⟨fun name _ => by rw [hglobal], ih _ ?_⟩
    rw [hframes]
    exact (size_enter s _ []).symm ▸ Nat.succ_pos _

/-- An application in the scope of a call leaves the scope as it was, and the other elements can have
their turn. -/
theorem after_application {T : Traversal C} {f : ProcId} {p : Procedure} {s t : Store}
    (hs : Ready f p s) (hcode : p.code.callSiteIndependent = true) {host : Host} {carried : C}
    {x v : Value} {xs : List Value}
    (hspares : T.Spares traversalNames (fun depth => p.code.run host (inner host depth)) (.proc f)
      carried (x :: xs) s)
    (hends : Ends (fun depth => p.code.run host (inner host depth) (T.application carried x))
      (s.enter (T.frame (.proc f) carried (x :: xs)) [0]) (.ok v t)) :
    InCall (T.frame (.proc f) carried (x :: xs)) t ∧ Ready f p t ∧
      T.Spares traversalNames (fun depth => p.code.run host (inner host depth)) (.proc f)
        (T.next carried v) xs t := by
  have hplaceless : ∀ depth args, Placeless (p.code.run host (inner host depth) args) :=
    fun depth args => (detached_code host depth hcode args).placeless
  -- seen from outside of the scope, the application spares the names
  have hback := hends.calledFrom (fun depth => hplaceless depth _) s.stack s.pending
  obtain ⟨hnames, hrest⟩ := hspares v _ hback
  obtain ⟨least, hleast⟩ := hends
  have hrun := congrArg Result.store (hleast least le_rfl)
  have hglobal : (s.enter (T.frame (.proc f) carried (x :: xs)) [0]).frame 0 = s.frame 0 :=
    frame_enter_of_ne (hs.offers.definition map (by decide)).frames_pos.ne
  have ht : Ready f p t := (hs.enter _).after hrun fun name hname => by
    rw [hglobal]
    exact hnames name hname
  exact ⟨hs.after_inCall hcode hrun ht, ht, hrest.calledFrom hplaceless t.stack t.pending⟩

/-- Running the code of a traversal comes to the same as running the procedure on the elements in
turn. -/
theorem sameEnds_inTurn {T : Traversal C} {host : Host} {combine : Value → Value → Value}
    (law : T.Lawful host combine) {f : ProcId} {p : Procedure}
    (hpolicy : p.evaluatesOperands = true) (hcode : p.code.callSiteIndependent = true)
    (hcount : ∀ carried x, p.arity.accepts (T.application carried x).length = true)
    {carried : C} {xs : List Value} {s : Store} (hs : Ready f p s)
    (hspares : T.Spares traversalNames (fun depth => p.code.run host (inner host depth)) (.proc f)
      carried xs s) :
    SameEnds (fun depth => T.definition.procedure.code.run host (inner host depth)
        (T.args (.proc f) carried xs))
      (fun depth => T.inTurn (p.code.run host (inner host depth)) (.proc f) carried xs >>=
        fun vs => pure (T.answer carried vs)) s := by
  have hdetached : ∀ depth args, Detached (p.code.run host (inner host depth) args) :=
    fun depth args => detached_code host depth hcode args
  induction xs generalizing carried s with
  | nil =>
    have hu := InCall.enter hs.offers (T.frame (.proc f) carried [])
    have hbody : SameEnds (fun depth => eval host depth T.definition.body)
        (fun _ => pure (T.answer carried [])) (s.enter (T.frame (.proc f) carried []) [0]) :=
      .of_ends (law.stop hu) (ends_of_eq fun _ => rfl)
    refine (SameEnds.withScope (steady_eval host _) (steady_pure _) hbody).trans ?_
    exact .of_eq fun depth => (detached_pure _).withScope_eq _ _ s
  | cons x xs ih =>
    let frame := T.frame (.proc f) carried (x :: xs)
    have hu := hs.enter frame
    have happlied : ∀ v t, Ends (fun depth => p.code.run host (inner host depth)
        (T.application carried x)) (s.enter frame [0]) (.ok v t) →
        InCall frame t ∧ Ready f p t ∧ T.Spares traversalNames
          (fun depth => p.code.run host (inner host depth)) (.proc f) (T.next carried v) xs t :=
      fun _ _ hends => after_application hs hcode hspares hends
    have hstep := law.step (InCall.enter hs.offers frame) hu.get hpolicy (hcount carried x)
      fun v t hends => (happlied v t hends).1
    let inside := fun depth => p.code.run host (inner host depth) (T.application carried x) >>=
      fun v => T.inTurn (p.code.run host (inner host depth)) (.proc f) (T.next carried v) xs >>=
        fun vs => pure (T.answer carried (v :: vs))
    have hsteady : Steady inside := steady_bind (steady_code host p.code _) fun v =>
      steady_bind (T.steady_inTurn (steady_code host p.code) _ _ _) fun vs => steady_pure _
    have hinside : ∀ depth, Detached (inside depth) := fun depth =>
      detached_bind (hdetached depth _) fun v =>
        detached_bind (T.detached_inTurn (hdetached depth) _ _ _) fun vs => detached_pure _
    have hbody : SameEnds (fun depth => eval host depth T.definition.body) inside
        (s.enter frame [0]) := by
      refine hstep.trans (.bind (steady_code host _ _) (steady_code host _ _) (.refl _ _) ?_)
      intro v t hends
      obtain ⟨-, ht, hrest⟩ := happlied v t hends
      have hnext := SameEnds.bind (steady_code host _ _) (steady_bind
        (T.steady_inTurn (steady_code host p.code) _ _ _) fun vs => steady_pure _) (ih ht hrest)
        fun r t' _ => .refl (fun _ => (pure (combine v r) : Run Value)) t'
      refine hnext.trans (.of_eq fun depth => ?_)
      simp only [bind_assoc, pure_bind, law.answer_cons]
    refine (SameEnds.withScope (steady_eval host _) hsteady hbody).trans (.of_eq fun depth => ?_)
    rw [(hinside depth).withScope_eq]
    simp only [inTurn, bind_assoc, pure_bind]
    rfl

end Traversal

/-! ### Traversals in a session -/

/-- A session that was started with the prelude is ready for the traversals whenever the global
names that they are written with have the bindings that they had at the start. -/
theorem Session.ready {host : Host} {journal : Journal} {s₀ : Store} {steps : List (Host × Step)}
    {m : Moment} (hprelude : host.HasPrelude)
    (hstart : start host true (.initial journal) = .ok () s₀)
    (hm : m ∈ ⟨.acted, s₀⟩ :: moments steps s₀)
    (hnames : ∀ name ∈ traversalNames, (m.store.frame 0).get? name = (s₀.frame 0).get? name)
    {f : ProcId} (hf : f < m.store.procedures.size) :
    Ready f (m.store.procedures.get f) m.store := by
  have hhistory : history host true journal steps =
      (tracedStart host true (.initial journal)).1 ++ ⟨.acted, s₀⟩ :: moments steps s₀ := by
    simp only [history, hstart, Result.store_ok]
  have hgrows : s₀.Grows m.store := by
    have hpairs := (history_grows host true journal steps).2
    rw [hhistory] at hpairs
    obtain ⟨hfirst, -⟩ := List.pairwise_cons.mp (List.pairwise_append.mp hpairs).2.1
    obtain rfl | hm := List.mem_cons.mp hm
    · exact .refl s₀
    · exact hfirst m hm
  refine ⟨(offers_of_start hprelude hstart).grows hgrows (by decide) (by decide) hnames, hf, rfl,
    ?_⟩
  obtain ⟨parents, htree⟩ :=
    (tree_initial journal).of_linked (history_linked host true journal steps)
  exact ⟨parents, htree m (by rw [hhistory]; exact List.mem_append_right _ hm)⟩

/-- `map` and `foldl` apply a procedure to the elements of a list in turn. Let a session have been
started with the prelude, and take any moment since at which the names that the traversals are
written with have the bindings that they had at the start. Let a procedure evaluate its operands and
leave the place of its call alone, and let none of its applications bind one of these names again.
Then `map` with this procedure agrees with running the procedure on the first element, then on the
second one and so on, once for each element, and answers with the list of the results. `foldl`
agrees with running it on a first value and the first element, then on the result and the second
element and so on, and answers with the last result, or with the first value if there is no element.
An application that fails is the last one, and its failure is that of the whole. -/
theorem prelude_traversals_in_turn (host host' : Host) (journal : Journal) (s₀ : Store)
    (steps : List (Host × Session.Step)) (m : Moment) (hprelude : host.HasPrelude)
    (hstart : Session.start host true (.initial journal) = .ok () s₀)
    (hm : m ∈ ⟨.acted, s₀⟩ :: Session.moments steps s₀)
    (hnames : ∀ name ∈ traversalNames, (m.store.frame 0).get? name = (s₀.frame 0).get? name)
    (f : ProcId) (hf : f < m.store.procedures.size)
    (hpolicy : (m.store.procedures.get f).evaluatesOperands = true)
    (hcode : (m.store.procedures.get f).code.callSiteIndependent = true)
    (xs operands : List Value) :
    let s := m.store
    let p := s.procedures.get f
    let run := fun depth => p.code.run host' (inner host' depth)
    (p.arity.accepts 1 = true → s.lookup? "map" = (s.frame 0).get? "map" →
      mapping.Spares traversalNames run (.proc f) () xs s →
      EvaluatesAll host' operands s (.ok [.proc f, .ofList xs] s) →
      Agree (fun depth => eval host' depth (.call "map" operands))
        (fun depth => do
          let results ← mapping.inTurn (run depth) (.proc f) () xs
          return .ofList results) s) ∧
    ∀ first, p.arity.accepts 2 = true → s.lookup? "foldl" = (s.frame 0).get? "foldl" →
      folding.Spares traversalNames run (.proc f) first xs s →
      EvaluatesAll host' operands s (.ok [.proc f, first, .ofList xs] s) →
      Agree (fun depth => eval host' depth (.call "foldl" operands))
        (fun depth => do
          let results ← folding.inTurn (run depth) (.proc f) first xs
          return results.getLastD first) s := by
  intro s p run
  have hready : Ready f p s := Session.ready hprelude hstart hm hnames hf
  have hstands : ∀ d ∈ [map, foldl], s.lookup? d.name = (s.frame 0).get? d.name →
      s.StandsFor d.name d.procedure := by
    intro d hd hlookup
    obtain ⟨id, -, hget, hp⟩ := hready.offers.definition d hd
    exact ⟨id, hlookup.trans hget, hp⟩
  have hsteady : ∀ args, Steady fun depth => run depth args := steady_code host' p.code
  refine ⟨fun hone hlookup hspares hoperands => ?_, fun first htwo hlookup hspares hoperands => ?_⟩
  · apply SameEnds.agree (steady_eval host' _)
      (steady_bind (mapping.steady_inTurn hsteady _ _ _) fun _ => steady_pure _)
    have hcount : map.procedure.arity.accepts operands.length = true := by
      rw [← length_of_evaluatesAll hoperands]
      rfl
    exact (SameEnds.call_evaluated (hstands map (by decide) hlookup) hcount rfl hoperands).trans
      (Traversal.sameEnds_inTurn (lawful_mapping host') hpolicy hcode (fun _ _ => hone) hready
        hspares)
  · apply SameEnds.agree (steady_eval host' _)
      (steady_bind (folding.steady_inTurn hsteady _ _ _) fun _ => steady_pure _)
    have hcount : foldl.procedure.arity.accepts operands.length = true := by
      rw [← length_of_evaluatesAll hoperands]
      rfl
    exact (SameEnds.call_evaluated (hstands foldl (by decide) hlookup) hcount rfl hoperands).trans
      (Traversal.sameEnds_inTurn (lawful_folding host') hpolicy hcode (fun _ _ => htwo) hready
        hspares)

/-- The first element is printed, and the second one cannot be. A fold goes through its elements
from left to right. -/
theorem prelude_traversals_in_turn_stops :
    ∃ s₀, Session.start Prelude.installed true (.initial .empty) = .ok () s₀ ∧
      (∃ depth t, eval .bare depth (.call "map" [.atom "print",
          (Value.ofList [.ofText "a", .atom "x", .ofText "b"]).quoted]) s₀ =
            .error (.error (.wrongType "print" (.notAText "x"))) t ∧
          t.output = s₀.output.write "a") ∧
      ∃ depth t, eval .bare depth (.call "foldl" [.atom "cons", Value.null.quoted,
          (Value.ofList [.atom "a", .atom "b"]).quoted]) s₀ =
            .ok (.cell (.cell .null (.atom "a")) (.atom "b")) t := by
  obtain ⟨s₀, hstart, hoffers⟩ :=
    Session.start_offers Prelude.hasPrelude_installed (by decide) (by decide) .empty
  have hstack : s₀.stack = [0] := by
    have h := Session.start_stack Prelude.installed true .empty
    rwa [hstart] at h
  have hlookup : ∀ name, s₀.lookup? name = (s₀.frame 0).get? name := by
    intro name
    rw [lookup?, hstack, lookupIn]
    cases (s₀.frame 0).get? name <;> rfl
  have hquote := (hoffers.primitive (.form .quote) (by decide)).standsFor hstack
  have hquoted : ∀ v : Value, Evaluates .bare v.quoted s₀ (.ok v s₀) := evaluates_quoted hquote
  have hpos := hoffers.primitive (.form .quote) (by decide) |>.frames_pos
  refine ⟨s₀, hstart, ?_, ?_⟩
  · obtain ⟨f, hf, hget, hp⟩ := hoffers.primitive (.builtin .print) (by decide)
    have hprint : Evaluates .bare (.atom "print") s₀ (.ok (.proc f) s₀) :=
      evaluates_atom ((hlookup "print").trans hget)
    obtain ⟨hmap, -⟩ := prelude_traversals_in_turn Prelude.installed .bare .empty s₀ []
      ⟨.acted, s₀⟩ Prelude.hasPrelude_installed hstart List.mem_cons_self (fun _ _ => rfl) f hf
      (by rw [hp]; rfl) (by rw [hp]; rfl) [.ofText "a", .atom "x", .ofText "b"]
      [.atom "print", (Value.ofList [.ofText "a", .atom "x", .ofText "b"]).quoted]
    simp only [hp] at hmap
    have hrun : ∀ depth args, (Procedure.ofPrimitive (.builtin .print)).code.run .bare
        (inner .bare depth) args = Builtin.print.run depth args := fun _ _ => rfl
    have hagree := hmap rfl (hlookup "map") (mapping.spares_builtin hrun _ _ _ _ hpos)
      (evaluatesAll_cons hprint (evaluatesAll_one (hquoted _)))
    have hrefused : ∀ s, Builtin.print.run 0 [.atom "x"] s =
        .error (.error (.wrongType "print" (.notAText "x"))) s := by
      intro s
      have hwrite : (Value.atom "x").write s.procedures 0 = .ok "x" := by
        simp [Value.write, Value.writeLeaf, Value.text]
      have hdisplay : display 0 (.atom "x") s = .ok "x" s := by
        rw [display_eq, hwrite]
        rfl
      exact bind_of_ok hdisplay
    have hspec : ∃ t, (do
        let results ← mapping.inTurn ((Procedure.ofPrimitive (.builtin .print)).code.run .bare
          (inner .bare 0)) (.proc f) () [.ofText "a", .atom "x", .ofText "b"]
        return .ofList results : Run Value) s₀ =
          .error (.error (.wrongType "print" (.notAText "x"))) t ∧
        t.output = s₀.output.write "a" := by
      refine ⟨_, bind_of_error ((mapping.inTurn_of_ok rfl).trans
        (bind_of_error (mapping.inTurn_of_error (hrefused _)))), ?_⟩
      rfl
    obtain ⟨t, ht, houtput⟩ := hspec
    obtain ⟨depth, hdepth⟩ := hagree.exists_run ⟨0, ht⟩ (by simp [Result.cutOff_error_iff])
    exact ⟨depth, t, hdepth, houtput⟩
  · obtain ⟨f, hf, hget, hp⟩ := hoffers.primitive (.builtin .cons) (by decide)
    have hcons : Evaluates .bare (.atom "cons") s₀ (.ok (.proc f) s₀) :=
      evaluates_atom ((hlookup "cons").trans hget)
    obtain ⟨-, hfoldl⟩ := prelude_traversals_in_turn Prelude.installed .bare .empty s₀ []
      ⟨.acted, s₀⟩ Prelude.hasPrelude_installed hstart List.mem_cons_self (fun _ _ => rfl) f hf
      (by rw [hp]; rfl) (by rw [hp]; rfl) [.atom "a", .atom "b"]
      [.atom "cons", Value.null.quoted, (Value.ofList [.atom "a", .atom "b"]).quoted]
    simp only [hp] at hfoldl
    have hrun : ∀ depth args, (Procedure.ofPrimitive (.builtin .cons)).code.run .bare
        (inner .bare depth) args = Builtin.cons.run depth args := fun _ _ => rfl
    have hagree := hfoldl .null rfl (hlookup "foldl") (folding.spares_builtin hrun _ _ _ _ hpos)
      (evaluatesAll_cons hcons (evaluatesAll_cons (hquoted _) (evaluatesAll_one (hquoted _))))
    obtain ⟨depth, hdepth⟩ := hagree.exists_run ⟨0, rfl⟩ (Result.not_cutOff_ok _ _)
    exact ⟨depth, _, hdepth⟩

end RationalLisp
