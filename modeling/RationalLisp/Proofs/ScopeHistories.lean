import RationalLisp.Proofs.SharedFrames

/-!
# Entering and leaving scopes in any order

From the first store on, actions on stacks come in any order, and some of them fail. A scope that is
left gives back the stack on which it was entered. A kept stack is made of the frames it was made
of. A name has the value that was written last in the innermost frame that binds it, in the present
stack and in every other one.
-/

namespace RationalLisp

namespace Scopes

variable {acts inner : List Action} {s t : Store}

/-! ### Leaving -/

/-- An action that begins or ends a scope. -/
def Action.bounds : Action → Bool
  | enter _ _ => true
  | leave => true
  | _ => false

/-- Every scope that is entered is left again, and no other one. -/
inductive Balanced : List Action → Prop
  | nil : Balanced []
  | action {a : Action} {rest : List Action} (h : a.bounds = false) :
      Balanced rest → Balanced (a :: rest)
  | scope {layer : Layer} {base : Option Stack} {inner rest : List Action} :
      Balanced inner → Balanced rest → Balanced (.enter layer base :: (inner ++ .leave :: rest))

theorem Balanced.append {rest : List Action} (h : Balanced acts) (hrest : Balanced rest) :
    Balanced (acts ++ rest) := by
  induction h with
  | nil => exact hrest
  | action ha _ ih => exact .action ha ih
  | scope hinner _ _ ih =>
    rw [List.cons_append, List.append_assoc, List.cons_append]
    exact .scope hinner ih

theorem Action.pending_after {a : Action} (h : a.bounds = false) :
    (a.after s).pending = s.pending := by
  cases a with
  | push layer => cases layer <;> rfl
  | pop => rw [after_pop]
  | bindInnermost name v =>
    rw [after_bindInnermost]
    cases s.stack <;> rfl
  | bindParent name v =>
    rw [after_bindParent]
    rcases s.stack with _ | ⟨_, _ | ⟨_, _⟩⟩ <;> rfl
  | write id name v => rfl
  | lookup name => rw [after_lookup]
  | innermost => rw [after_innermost]
  | outermost => rw [after_outermost]
  | snapshot => rfl
  | enter layer base => exact nomatch h
  | leave => exact nomatch h

theorem Action.pending_after_enter (layer : Layer) (base : Option Stack) (s : Store) :
    ((enter layer base).after s).pending = s.stack :: s.pending := by
  cases layer <;> rfl

theorem Action.stack_after_enter (layer : Layer) (base : Option Stack) (s : Store) :
    ((enter layer base).after s).stack = layer.id s :: base.getD s.stack := by
  cases layer <;> rfl

/-- The stack that was put aside last comes back. -/
theorem sameScopes_leave (h : t.pending = s.stack :: s.pending) : s.SameScopes t.leave := by
  unfold Store.leave
  rw [h]
  exact ⟨rfl, rfl⟩

/-- Whatever goes on in a scope, nothing happens to the stacks put aside around it. -/
theorem Balanced.pending_perform (h : Balanced acts) (s : Store) :
    (perform acts s).pending = s.pending := by
  induction h generalizing s with
  | nil => rfl
  | action ha _ ih => rw [perform_cons, ih, Action.pending_after ha]
  | @scope layer base inner rest _ _ ihinner ihrest =>
    have hleave : s.SameScopes (perform inner ((Action.enter layer base).after s)).leave :=
      sameScopes_leave (by rw [ihinner, Action.pending_after_enter])
    rw [perform_cons, perform_append, perform_cons, ihrest]
    exact hleave.pending

/-- A scope that is left gives back the stack on which it was entered. -/
theorem Balanced.sameScopes (h : Balanced inner) (layer : Layer) (base : Option Stack) (s : Store) :
    s.SameScopes (perform inner ((Action.enter layer base).after s)).leave :=
  sameScopes_leave (by rw [h.pending_perform, Action.pending_after_enter])

/-- The actions go on outside of all scopes, or inside a scope that was entered and not left yet. -/
inductive Nested (s : Store) : List Action → Prop
  | outside {acts : List Action} (h : (perform acts s).pending = []) : Nested s acts
  | inside {before inner : List Action} {layer : Layer} {base : Option Stack} :
      Nested s before → Balanced inner → Nested s (before ++ .enter layer base :: inner)

/-- After leaving a scope, the actions go on where they went on before it was entered. -/
theorem Nested.leave {before : List Action} {layer : Layer} {base : Option Stack}
    (h : Nested s before) (hinner : Balanced inner) :
    Nested s (before ++ .enter layer base :: (inner ++ [.leave])) := by
  have hscope : Balanced (.enter layer base :: (inner ++ [.leave])) := .scope hinner .nil
  cases h with
  | outside hout =>
    refine .outside ?_
    rw [perform_append, hscope.pending_perform, hout]
  | @inside before outer layer' base' hbefore houter =>
    rw [List.append_assoc, List.cons_append]
    exact .inside hbefore (houter.append hscope)

theorem Nested.concat (h : Nested s acts) (a : Action) : Nested s (acts ++ [a]) := by
  cases ha : a.bounds with
  | false =>
    cases h with
    | outside hout =>
      refine .outside ?_
      rw [perform_append, perform_cons]
      exact (Action.pending_after ha).trans hout
    | inside hbefore hinner =>
      rw [List.append_assoc, List.cons_append]
      exact .inside hbefore (hinner.append (.action ha .nil))
  | true =>
    cases a with
    | enter layer base => exact .inside h .nil
    | leave =>
      cases h with
      | outside hout =>
        refine .outside ?_
        rw [perform_append, perform_cons]
        change (perform acts s).leave.pending = []
        rw [Store.leave, hout]
        exact hout
      | inside hbefore hinner =>
        rw [List.append_assoc, List.cons_append]
        exact hbefore.leave hinner
    | _ => exact nomatch ha

theorem nested (hs : s.pending = []) (acts : List Action) : Nested s acts := by
  induction acts using List.reverseRecOn with
  | nil => exact .outside hs
  | append_singleton acts a ih => exact ih.concat a

/-- A stack that is put aside was put aside on entering a scope, and this scope goes on. -/
theorem exists_enter (hs : s.pending = []) (h : (perform acts s).pending ≠ []) :
    ∃ before layer base inner, acts = before ++ .enter layer base :: inner ∧ Balanced inner := by
  cases nested hs acts with
  | outside hout => exact absurd hout h
  | @inside before inner layer base _ hinner => exact ⟨before, layer, base, inner, rfl, hinner⟩

/-! ### Values -/

section Values

variable {log : List Write} {name : Text}

theorem lookup?_eq (hlog : ∀ id name, (s.frame id).get? name = latest? log id name) (name : Text) :
    s.lookup? name = s.stack.findSome? fun id => latest? log id name := by
  rw [Store.lookup?, Store.lookupIn_eq]
  simp only [hlog]

/-- A name without a value in a stack is one that was never written in a frame of it. -/
theorem isBound_eq_false_iff (hlog : ∀ id name, (s.frame id).get? name = latest? log id name) :
    s.isBound name = false ↔ ∀ w ∈ log, w.name = name → w.frame ∉ s.stack := by
  rw [Store.isBound, lookup?_eq hlog, Option.isSome_eq_false_iff, Option.isNone_iff_eq_none,
    List.findSome?_eq_none_iff]
  constructor
  · intro hnone w hw hname hframe
    exact latest?_eq_none_iff.mp (hnone _ hframe) w hw rfl hname
  · intro hnever id hid
    exact latest?_eq_none_iff.mpr fun w hw hframe hname => hnever w hw hname (hframe ▸ hid)

/-- The bindings of the frame of a scope are written on entering it. -/
theorem get?_after_enter (hlog : ∀ id name, (s.frame id).get? name = latest? log id name)
    (hs : Standing s) (layer : Layer) {base : Stack}
    (hbase : ∀ id ∈ base, id < s.frames.size) (id : FrameId) (name : Text) :
    (((Action.enter layer (some base)).after s).frame id).get? name =
      latest? (log ++ layer.writes s) id name := by
  cases layer with
  | new bindings =>
    rw [latest?_append, ← hlog]
    exact (Action.effect (a := .enter (.new bindings) (some base)) hbase hs).get?_frame id name
  | held _ =>
    rw [Layer.writes, List.append_nil, ← hlog]
    rfl

end Values

/-- Actions on stacks, in any order and some of them failing. Leaving a scope gives back the stack
on which it was entered; a kept stack stays made of the same frames; names have, in the present
stack and in any other one, the values written last in the innermost frames that bind them; and a
failure changes nothing. -/
theorem stacks_share_frames (journal : Journal) (acts : List Action)
    (hknown : Known acts (.initial journal)) :
    let start := Store.initial journal
    let s := perform acts start
    let log := written acts start
    -- a scope gives back the stack on which it was entered, and where a stack is put aside there
    -- is a scope to leave
    (∀ before layer base inner, acts = before ++ .enter layer base :: inner → Balanced inner →
      (perform before start).SameScopes (Action.leave.after s)) ∧
    (s.pending ≠ [] → ∃ before layer base inner,
      acts = before ++ .enter layer base :: inner ∧ Balanced inner) ∧
    -- so does a scope around a run, which passes on the end of the run, a failure as well
    (∀ (frame : Frame) (base : Stack) (body : Run Value) (inner : List Action), Balanced inner →
      Result.store (body (s.enter frame base)) = perform inner (s.enter frame base) →
      Run.withScope frame base body s = Result.mapStore Store.leave (body (s.enter frame base)) ∧
        s.SameScopes (Result.store (Run.withScope frame base body s))) ∧
    -- a scope can be entered later on a stack that was kept, whose frames are still there
    (∀ before later, acts = before ++ later →
      let kept := (perform before start).stack
      Run.snapshot (perform before start) = .ok kept (perform before start) ∧
      (∀ id ∈ kept, id < s.frames.size) ∧
      ∀ layer, let u := (Action.enter layer (some kept)).after s
        u.stack = layer.id s :: kept ∧
        ∀ name, u.lookup? name =
          (layer.id s :: kept).findSome? fun id => latest? (log ++ layer.writes s) id name) ∧
    -- the last value written in a frame, and in the innermost frame of a stack
    (∀ id name, (s.frame id).get? name = latest? log id name) ∧
    (∀ name c, s.lookupIn name c = c.findSome? fun id => latest? log id name) ∧
    (∀ name, Run.lookup name s = match s.stack.findSome? fun id => latest? log id name with
      | some v => .ok v s
      | none => .error (.error (.unboundName name)) s) ∧
    (∀ name, s.isBound name = false ↔ ∀ w ∈ log, w.name = name → w.frame ∉ s.stack) ∧
    -- a failure changes nothing
    ∀ (a : Action) (failure : Failure) (t : Store), a.run s = .error failure t → t = s := by
  intro start s log
  have hstart : Standing start := by simp [Supported, start, Store.initial]
  have hlog : ∀ id name, (s.frame id).get? name = latest? log id name := fun id name => by
    rw [get?_perform hknown hstart, Store.frame_of_size_le (Nat.zero_le id), Frame.get?,
      Option.or_none]
  have hs := standing_perform hknown hstart
  refine ⟨?leave, exists_enter rfl, ?within, ?kept, hlog, ?lookupIn, ?lookup,
    fun name => isBound_eq_false_iff hlog, fun a failure t h => Action.eq_of_error h⟩
  case leave =>
    rintro before layer base inner rfl hinner
    change (perform before start).SameScopes (perform (before ++ _) start).leave
    rw [perform_append, perform_cons]
    exact hinner.sameScopes layer base _
  case within =>
    intro frame base body inner hinner hbody
    refine ⟨Simulation.withScope_eq frame base body s, ?_⟩
    rw [Simulation.withScope_eq, Result.store_mapStore, hbody]
    exact sameScopes_leave (hinner.pending_perform _)
  case kept =>
    rintro before later rfl kept
    obtain ⟨hbefore, hlater⟩ := known_append.mp hknown
    have hthen := standing_perform hbefore hstart
    have hsize : (perform before start).frames.size ≤ s.frames.size := by
      change _ ≤ (perform (before ++ later) start).frames.size
      rw [perform_append]
      exact size_le_perform hlater hthen
    have hkept : ∀ id ∈ kept, id < s.frames.size := fun id hid =>
      ((supported_cons.mp hthen).1 id hid).trans_le hsize
    refine ⟨rfl, hkept, fun layer => ?_⟩
    have hstack := Action.stack_after_enter layer (some kept) s
    refine ⟨hstack, fun name => ?_⟩
    rw [lookup?_eq (get?_after_enter hlog hs layer hkept), hstack]
    rfl
  case lookupIn =>
    intro name c
    rw [Store.lookupIn_eq]
    simp only [hlog]
  case lookup =>
    intro name
    rw [← lookup?_eq hlog name]
    exact Run.lookup_eq name s

/-- In a scope on a stack with one frame, more is taken off than the scope has put on, and then some
actions fail. A value that is written in the frame underneath is found on both stacks. -/
theorem stacks_share_frames_below_scope :
    let before : List Action := [.push (.new [("x", .num 1)]), .snapshot,
      .push (.new [("y", .num 2)])]
    let inner : List Action := [.pop, .pop, .pop, .bindParent "x" (.num 3),
      .write 0 "x" (.num 4), .lookup "y"]
    let acts := before ++ .enter (.new [("x", .num 5)]) (some [0]) :: inner
    let s := perform acts (.initial .empty)
    Known acts (.initial .empty) ∧ s.stack = [] ∧ (Action.leave.after s).stack = [1, 0] ∧
      s.lookupIn "x" [1, 0] = some (.num 4) ∧
      Run.lookup "x" s = .error (.error (.unboundName "x")) s := by
  intro before inner acts s
  have hknown : Known acts (.initial .empty) := by decide +kernel
  have hinner : Balanced inner :=
    .action rfl (.action rfl (.action rfl (.action rfl (.action rfl (.action rfl .nil)))))
  obtain ⟨hleave, -, -, -, -, hlookupIn, hlookup, -⟩ := stacks_share_frames .empty acts hknown
  have hstack : s.stack = [] := by decide +kernel
  refine ⟨hknown, hstack, ?_, ?_, ?_⟩
  · exact (hleave before _ _ inner rfl hinner).stack.trans (by decide +kernel)
  · exact (hlookupIn "x" [1, 0]).trans (by decide +kernel)
  · exact (hlookup "x").trans (by rw [hstack]; rfl)

end Scopes

end RationalLisp
