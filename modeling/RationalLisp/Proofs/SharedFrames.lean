import RationalLisp.Proofs.GlobalNames
import Mathlib.Data.List.Induction

/-!
# Stacks and the frames on them

A stack is a sequence of frames, and copies of it share the frames. Whatever is pushed, popped,
entered and left in between, a scope that is left gives back the stack on which it was entered, and
a stack that was kept stays as it was. A name has in every stack the value that was written last in
the innermost frame in which it was written at all, whichever stack the writing went through.

## Implementation notes

The actions are those of the runs. In addition, a frame may be put on a stack again, and it may be
written without a stack: a frame that is found on a kept stack, or on the stack of another session,
can be used in both ways.
-/

namespace RationalLisp

namespace Scopes

/-! ### Actions -/

/-- A frame that is put on a stack: one that is made of bindings, or one that is there already. -/
inductive Layer where
  | new (bindings : List (Text × Value))
  | held (id : FrameId)
  deriving DecidableEq

/-- What can be done with stacks and frames. -/
inductive Action where
  | push (layer : Layer)
  | pop
  | bindInnermost (name : Text) (v : Value)
  | bindParent (name : Text) (v : Value)
  | write (id : FrameId) (name : Text) (v : Value)
  | lookup (name : Text)
  | innermost
  | outermost
  | snapshot
  | enter (layer : Layer) (base : Option Stack)
  | leave
  deriving DecidableEq

/-- The identifier that a frame has when it is on the stack. -/
def Layer.id (s : Store) : Layer → FrameId
  | new _ => s.frames.size
  | held id => id

/-- The run of an action. A scope with no base of its own has the present stack. -/
def Action.run : Action → Run Unit
  | push (.new bindings) => Run.push (Frame.ofPairs bindings)
  | push (.held id) => modify fun s => { s with stack := id :: s.stack }
  | pop => discard Run.pop
  | bindInnermost name v => Run.bindInnermost name v
  | bindParent name v => Run.bindParent name v
  | write id name v => modify (·.bindAt id name v)
  | lookup name => discard (Run.lookup name)
  | innermost => discard Run.innermost
  | outermost => discard Run.outermost
  | snapshot => discard Run.snapshot
  | enter (.new bindings) base =>
    modify fun s => s.enter (Frame.ofPairs bindings) (base.getD s.stack)
  | enter (.held id) base =>
    modify fun s => { s with pending := s.stack :: s.pending, stack := id :: base.getD s.stack }
  | leave => modify Store.leave

/-- The store after an action, also where it fails. -/
def Action.after (a : Action) (s : Store) : Store := Result.store (a.run s)

/-- The store after some actions. -/
def perform (acts : List Action) (s : Store) : Store := acts.foldl (fun s a => a.after s) s

/-- The frames that an action names. -/
def Action.names : Action → List FrameId
  | push (.held id) => [id]
  | write id _ _ => [id]
  | enter (.new _) base => base.getD []
  | enter (.held id) base => id :: base.getD []
  | _ => []

/-- The actions name frames only that are there. -/
def Known : List Action → Store → Prop
  | [], _ => True
  | a :: acts, s => (∀ id ∈ a.names, id < s.frames.size) ∧ Known acts (a.after s)

instance Known.decidable : ∀ acts s, Decidable (Known acts s)
  | [], _ => .isTrue trivial
  | a :: acts, s =>
    have := Known.decidable acts (a.after s)
    inferInstanceAs (Decidable ((∀ id ∈ a.names, id < s.frames.size) ∧ Known acts (a.after s)))

/-! ### Writing -/

/-- A name was given a value in a frame. -/
structure Write where
  frame : FrameId
  name : Text
  value : Value
  deriving DecidableEq

/-- What it is to bind names in a new frame. -/
def Layer.writes (s : Store) : Layer → List Write
  | new bindings => bindings.map fun b => ⟨s.frames.size, b.1, b.2⟩
  | held _ => []

/-- What an action writes. -/
def Action.writes (s : Store) : Action → List Write
  | push layer => layer.writes s
  | enter layer _ => layer.writes s
  | write id name v => [⟨id, name, v⟩]
  | bindInnermost name v =>
    match s.stack with
    | [] => []
    | id :: _ => [⟨id, name, v⟩]
  | bindParent name v =>
    match s.stack with
    | _ :: id :: _ => [⟨id, name, v⟩]
    | _ => []
  | _ => []

/-- What some actions write, in their order. -/
def written : List Action → Store → List Write
  | [], _ => []
  | a :: acts, s => a.writes s ++ written acts (a.after s)

/-- The value that was written last for a name in a frame. -/
def latest? (log : List Write) (id : FrameId) (name : Text) : Option Value :=
  (log.filter fun w => w.frame = id ∧ w.name = name).getLast?.map Write.value

theorem latest?_append (log log' : List Write) (id : FrameId) (name : Text) :
    latest? (log ++ log') id name = (latest? log' id name).or (latest? log id name) := by
  rw [latest?, List.filter_append, List.getLast?_append, Option.map_or]
  rfl

theorem latest?_eq_none_iff {log : List Write} {id : FrameId} {name : Text} :
    latest? log id name = none ↔ ∀ w ∈ log, w.frame = id → w.name ≠ name := by
  simp [latest?]

theorem latest?_single (id other : FrameId) (name n : Text) (v : Value) :
    latest? [⟨id, name, v⟩] other n = if id = other ∧ name = n then some v else none := by
  by_cases h : id = other ∧ name = n <;> simp [latest?, h]

/-- The bindings of a new frame count as written in their order. -/
theorem latest?_new (bindings : List (Text × Value)) (id : FrameId) (name : Text) :
    latest? (bindings.map fun b => ⟨id, b.1, b.2⟩) id name =
      (Frame.ofPairs bindings).get? name := by
  induction bindings using List.reverseRecOn with
  | nil => rfl
  | append_singleton bindings b ih =>
    have hset : Frame.ofPairs (bindings ++ [b]) = (Frame.ofPairs bindings).set b.1 b.2 :=
      List.foldl_append ..
    rw [List.map_append, latest?_append, ih, hset, List.map_singleton, latest?_single]
    by_cases hname : b.1 = name
    · simp [hname]
    · simp [hname, Frame.get?_set_of_ne _ _ hname]

theorem latest?_new_of_ne {id other : FrameId} (h : id ≠ other) (bindings : List (Text × Value))
    (name : Text) : latest? (bindings.map fun b => ⟨id, b.1, b.2⟩) other name = none := by
  refine latest?_eq_none_iff.mpr fun w hw hid => ?_
  obtain ⟨b, -, rfl⟩ := List.mem_map.mp hw
  exact absurd hid h

/-! ### What an action does -/

/-- The stacks are made of frames of a store with so many of them. -/
def Supported (size : Nat) (cs : List Stack) : Prop := ∀ c ∈ cs, ∀ id ∈ c, id < size

/-- All stacks of the store are made of frames that are there. -/
abbrev Standing (s : Store) : Prop := Supported s.frames.size (s.stack :: s.pending)

theorem supported_cons {size : Nat} {c : Stack} {cs : List Stack} :
    Supported size (c :: cs) ↔ (∀ id ∈ c, id < size) ∧ Supported size cs :=
  List.forall_mem_cons

/-- All that an action can do, with what it writes: it puts other stacks into place, it writes a
name, or it makes a frame. -/
inductive Effect (s : Store) : List Write → Store → Prop
  | moved (stack : Stack) (pending : List Stack)
      (h : Supported s.frames.size (stack :: pending)) :
      Effect s [] { s with stack := stack, pending := pending }
  | write (id : FrameId) (name : Text) (v : Value) (h : id < s.frames.size) :
      Effect s [⟨id, name, v⟩] (s.bindAt id name v)
  | frame (bindings : List (Text × Value)) (stack : Stack) (pending : List Stack)
      (h : Supported (s.frames.size + 1) (stack :: pending)) :
      Effect s (bindings.map fun b => ⟨s.frames.size, b.1, b.2⟩)
        { s with
          frames := s.frames.push (Frame.ofPairs bindings)
          stack := stack
          pending := pending }

section Effects

variable {s t : Store} {log : List Write} {id : FrameId} {name : Text}

theorem Supported.mono {m n : Nat} {cs : List Stack} (h : Supported m cs) (hle : m ≤ n) :
    Supported n cs := fun c hc id hid => (h c hc id hid).trans_le hle

theorem Effect.size_le (h : Effect s log t) : s.frames.size ≤ t.frames.size := by
  cases h with
  | moved => exact le_rfl
  | write => rw [Store.size_bindAt]
  | frame => exact Array.size_push _ ▸ Nat.le_succ _

theorem Effect.standing (h : Effect s log t) (hs : Standing s) : Standing t := by
  cases h with
  | moved stack pending h => exact h
  | write id name v h => rwa [Standing, Store.size_bindAt]
  | frame bindings stack pending h => rwa [Standing, Array.size_push]

/-- A name has the value that the action writes last, or the value that it had. -/
theorem Effect.get?_frame (h : Effect s log t) (id : FrameId) (name : Text) :
    (t.frame id).get? name = (latest? log id name).or ((s.frame id).get? name) := by
  cases h with
  | moved => rfl
  | write other n v h =>
    rw [latest?_single]
    by_cases hid : other = id
    · subst hid
      by_cases hname : n = name
      · subst hname
        simp [Store.get?_bindAt_self h]
      · simp [hname, Store.get?_bindAt_of_ne hname]
    · simp [hid, Store.frame_bindAt_of_ne (Ne.symm hid)]
  | frame bindings stack pending =>
    by_cases hid : id = s.frames.size
    · subst hid
      rw [latest?_new, Store.frame_of_size_le le_rfl, Frame.get?, Option.or_none]
      exact congrArg (Frame.get? name) (s.frame_enter_size _ stack)
    · rw [latest?_new_of_ne (Ne.symm hid), Option.none_or]
      exact congrArg (Frame.get? name) (Store.frame_enter_of_ne (c := stack) hid)

end Effects

theorem store_discard {α : Type} (m : Run α) (s : Store) :
    Result.store ((discard m : Run Unit) s) = Result.store (m s) := by
  change Result.store (EStateM.map (fun _ => ()) m s) = _
  rw [EStateM.map]
  cases m s <;> rfl

namespace Action

variable {s : Store} {name : Text} {v : Value}

@[simp] theorem after_lookup : (lookup name).after s = s := by
  rw [after, run, store_discard, Run.lookup_eq]
  cases s.lookup? name <;> rfl

@[simp] theorem after_innermost : innermost.after s = s := by
  obtain ⟨frames, procedures, stack, pending, output, journal⟩ := s
  cases stack <;> rfl

@[simp] theorem after_outermost : outermost.after s = s := by
  obtain ⟨frames, procedures, stack, pending, output, journal⟩ := s
  cases stack <;> rfl

theorem after_pop : pop.after s = { s with stack := s.stack.tail } := by
  obtain ⟨frames, procedures, stack, pending, output, journal⟩ := s
  cases stack <;> rfl

theorem after_bindInnermost : (bindInnermost name v).after s = match s.stack with
    | [] => s
    | id :: _ => s.bindAt id name v := by
  rw [after, run, Simulation.bindInnermost_eq]
  cases s.stack <;> rfl

theorem after_bindParent : (bindParent name v).after s = match s.stack with
    | _ :: id :: _ => s.bindAt id name v
    | _ => s := by
  rw [after, run, Simulation.bindParent_eq]
  rcases s.stack with _ | ⟨_, _ | ⟨_, _⟩⟩ <;> rfl

/-- Every action has one of the effects, and writes what is noted for it. -/
theorem effect {a : Action} (hnames : ∀ id ∈ a.names, id < s.frames.size)
    (hs : Standing s) : Effect s (a.writes s) (a.after s) := by
  have hidle : Effect s [] s := .moved s.stack s.pending hs
  obtain ⟨hstack, hpending⟩ := supported_cons.mp hs
  have hgrown := hs.mono (Nat.le_succ _)
  cases a with
  | push layer =>
    cases layer with
    | new bindings =>
      refine .frame bindings _ _ (supported_cons.mpr ⟨?_, (supported_cons.mp hgrown).2⟩)
      exact List.forall_mem_cons.mpr ⟨Nat.lt_succ_self _, (supported_cons.mp hgrown).1⟩
    | held id =>
      refine .moved _ _ (supported_cons.mpr ⟨?_, hpending⟩)
      exact List.forall_mem_cons.mpr ⟨hnames id List.mem_cons_self, hstack⟩
  | pop =>
    rw [after_pop]
    exact .moved _ _ (supported_cons.mpr
      ⟨fun id hid => hstack id (List.mem_of_mem_tail hid), hpending⟩)
  | bindInnermost name v =>
    rw [after_bindInnermost, writes]
    cases hs : s.stack with
    | nil => exact hidle
    | cons id rest => exact .write id name v (hstack id (hs ▸ List.mem_cons_self))
  | bindParent name v =>
    rw [after_bindParent, writes]
    match hs : s.stack with
    | [] => exact hidle
    | [_] => exact hidle
    | _ :: id :: _ => exact .write id name v (hstack id (by simp [hs]))
  | write id name v => exact .write id name v (hnames id List.mem_cons_self)
  | lookup name => exact after_lookup.symm ▸ hidle
  | innermost => exact after_innermost.symm ▸ hidle
  | outermost => exact after_outermost.symm ▸ hidle
  | snapshot => exact hidle
  | enter layer base =>
    have hbase : ∀ id ∈ base.getD [], id < s.frames.size := fun id hid =>
      hnames id (by cases layer <;> simp [names, hid])
    have hwhole : ∀ id ∈ base.getD s.stack, id < s.frames.size := by
      cases base with
      | none => exact hstack
      | some base => exact hbase
    cases layer with
    | new bindings =>
      refine .frame bindings _ _ (supported_cons.mpr ⟨?_, hgrown⟩)
      exact List.forall_mem_cons.mpr ⟨Nat.lt_succ_self _, fun id hid =>
        Nat.lt_succ_of_lt (hwhole id hid)⟩
    | held id =>
      refine .moved _ _ (supported_cons.mpr ⟨?_, hs⟩)
      exact List.forall_mem_cons.mpr ⟨hnames id List.mem_cons_self, hwhole⟩
  | leave =>
    obtain ⟨frames, procedures, stack, pending, output, journal⟩ := s
    cases pending with
    | nil => exact hidle
    | cons c pending => exact .moved c pending hpending

/-- An action that fails changes nothing. -/
theorem eq_of_error {a : Action} {t : Store} {failure : Failure}
    (h : a.run s = .error failure t) : t = s := by
  have hafter : t = a.after s := by rw [after, h]; rfl
  cases a with
  | push layer => cases layer <;> exact nomatch h
  | pop =>
    obtain ⟨frames, procedures, stack, pending, output, journal⟩ := s
    cases stack with
    | nil => exact hafter
    | cons id rest => exact nomatch h
  | bindInnermost name v =>
    rw [run, Simulation.bindInnermost_eq] at h
    cases hs : s.stack with
    | nil => rw [hafter, after_bindInnermost, hs]
    | cons id rest =>
      rw [hs] at h
      exact nomatch h
  | bindParent name v =>
    rw [run, Simulation.bindParent_eq] at h
    match hs : s.stack with
    | [] => rw [hafter, after_bindParent, hs]
    | [_] => rw [hafter, after_bindParent, hs]
    | _ :: id :: _ =>
      rw [hs] at h
      exact nomatch h
  | write id name v => exact nomatch h
  | lookup name => rw [hafter, after_lookup]
  | innermost => rw [hafter, after_innermost]
  | outermost => rw [hafter, after_outermost]
  | snapshot => exact nomatch h
  | enter layer base => cases layer <;> exact nomatch h
  | leave => exact nomatch h

end Action

/-! ### What a sequence of actions does -/

section Runs

variable {acts : List Action} {s : Store}

theorem perform_cons (a : Action) (acts : List Action) (s : Store) :
    perform (a :: acts) s = perform acts (a.after s) := rfl

theorem perform_append (acts acts' : List Action) (s : Store) :
    perform (acts ++ acts') s = perform acts' (perform acts s) := List.foldl_append ..

theorem known_append {acts acts' : List Action} :
    Known (acts ++ acts') s ↔ Known acts s ∧ Known acts' (perform acts s) := by
  induction acts generalizing s with
  | nil => exact (iff_of_eq (true_and _)).symm
  | cons a acts ih => exact (and_congr_right fun _ => ih).trans and_assoc.symm

theorem size_le_perform (hknown : Known acts s) (hs : Standing s) :
    s.frames.size ≤ (perform acts s).frames.size := by
  induction acts generalizing s with
  | nil => exact le_rfl
  | cons a acts ih =>
    have heffect := Action.effect hknown.1 hs
    exact heffect.size_le.trans (ih hknown.2 (heffect.standing hs))

theorem standing_perform (hknown : Known acts s) (hs : Standing s) :
    Standing (perform acts s) := by
  induction acts generalizing s with
  | nil => exact hs
  | cons a acts ih => exact ih hknown.2 ((Action.effect hknown.1 hs).standing hs)

/-- A name has the value that was written last, or the value that it had before. -/
theorem get?_perform (hknown : Known acts s) (hs : Standing s) (id : FrameId) (name : Text) :
    ((perform acts s).frame id).get? name =
      (latest? (written acts s) id name).or ((s.frame id).get? name) := by
  induction acts generalizing s with
  | nil => rfl
  | cons a acts ih =>
    have heffect := Action.effect hknown.1 hs
    calc ((perform acts (a.after s)).frame id).get? name
        = (latest? (written acts (a.after s)) id name).or (((a.after s).frame id).get? name) :=
          ih hknown.2 (heffect.standing hs)
      _ = (latest? (written acts (a.after s)) id name).or
            ((latest? (a.writes s) id name).or ((s.frame id).get? name)) := by
          rw [heffect.get?_frame]
      _ = (latest? (written (a :: acts) s) id name).or ((s.frame id).get? name) := by
          rw [written, latest?_append, Option.or_assoc]

end Runs

end Scopes

theorem Store.lookupIn_eq (s : Store) (name : Text) (c : Stack) :
    s.lookupIn name c = c.findSome? fun id => (s.frame id).get? name := by
  induction c with
  | nil => rfl
  | cons id rest ih =>
    rw [lookupIn, List.findSome?_cons, ih]
    cases (s.frame id).get? name <;> rfl

end RationalLisp
