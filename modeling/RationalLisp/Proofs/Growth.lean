import RationalLisp.Proofs.Histories
import RationalLisp.Proofs.Reach

/-!
# What only grows

A run takes nothing back. Frames and procedures are made and never dropped; a frame keeps its names
in the order in which they were bound first, and new names come after them; what has been printed
stays printed. All this holds from any moment of a run to any later one, however the run ends, and
so a name that has a value keeps having one.
-/

namespace RationalLisp

namespace Store

/-- No frame binds a name twice. -/
def NamesUnique (s : Store) : Prop := ∀ id, (s.frame id).names.Nodup

/-- What the first store holds is still there in the second one. -/
structure Grows (s t : Store) : Prop where
  frames : s.frames.size ≤ t.frames.size
  names : ∀ id, (s.frame id).names <+: (t.frame id).names
  unique : s.NamesUnique → t.NamesUnique
  procedures : s.procedures.toList <+: t.procedures.toList
  output : s.output.text <+: t.output.text

/-- Every frame of the first store is still there in the second one with its names in their order,
new names come after them, and a name that has a value in a stack of frames still has one. -/
structure KeepsNames (s t : Store) : Prop where
  frames : s.frames.size ≤ t.frames.size
  names : ∀ id, (s.frame id).names <+: (t.frame id).names
  lookup : ∀ (name : Text) (c : Stack), (s.lookupIn name c).isSome → (t.lookupIn name c).isSome

/-- A binding changes a frame by setting the name in it, or not at all. -/
theorem frame_bindAt (s : Store) (id : FrameId) (name : Text) (v : Value) (other : FrameId) :
    (s.bindAt id name v).frame other = s.frame other ∨
      (s.bindAt id name v).frame other = (s.frame other).set name v := by
  by_cases hother : other = id
  · simp only [frame, bindAt, Array.getD_eq_getD_getElem?, Array.getElem?_modify, hother, if_true]
    cases s.frames[id]? with
    | none => exact .inl rfl
    | some frame => exact .inr rfl
  · exact .inl (frame_bindAt_of_ne hother)

theorem frame_of_size_le {s : Store} {id : FrameId} (h : s.frames.size ≤ id) : s.frame id = [] := by
  simp [frame, Array.getD, Nat.not_lt.mpr h]

theorem frame_enter_size (s : Store) (frame : Frame) (c : Stack) :
    (s.enter frame c).frame s.frames.size = frame := by
  simp [Store.frame, enter, Array.getD]

theorem frames_leave (s : Store) : s.leave.frames = s.frames := by
  unfold leave
  split <;> rfl

theorem procedures_leave (s : Store) : s.leave.procedures = s.procedures := by
  unfold leave
  split <;> rfl

theorem output_leave (s : Store) : s.leave.output = s.output := by
  unfold leave
  split <;> rfl

namespace Grows

variable {s t u : Store}

theorem refl (s : Store) : s.Grows s :=
  ⟨le_rfl, fun _ => List.prefix_rfl, fun h => h, List.prefix_rfl, List.prefix_rfl⟩

theorem trans (h : s.Grows t) (h' : t.Grows u) : s.Grows u where
  frames := h.frames.trans h'.frames
  names id := (h.names id).trans (h'.names id)
  unique hs := h'.unique (h.unique hs)
  procedures := h.procedures.trans h'.procedures
  output := h.output.trans h'.output

/-- Nothing is lost where the frames and the output are the same and the table has grown. -/
theorem of_eq (hframes : t.frames = s.frames)
    (hprocedures : s.procedures.toList <+: t.procedures.toList) (houtput : t.output = s.output) :
    s.Grows t := by
  have hframe : t.frame = s.frame := by
    funext id
    rw [frame, frame, hframes]
  refine ⟨hframes ▸ le_rfl, fun id => hframe ▸ List.prefix_rfl, fun hs id => ?_, hprocedures,
    houtput ▸ List.prefix_rfl⟩
  rw [hframe]
  exact hs id

theorem bindAt (s : Store) (id : FrameId) (name : Text) (v : Value) :
    s.Grows (s.bindAt id name v) := by
  refine ⟨by simp [Store.bindAt], fun other => ?_, fun hs other => ?_, List.prefix_rfl,
    List.prefix_rfl⟩
  · obtain hframe | hframe := s.frame_bindAt id name v other
    · exact hframe ▸ List.prefix_rfl
    · rw [hframe]
      obtain hsame | ⟨-, hadded⟩ := Frame.names_set name v (s.frame other)
      · exact hsame ▸ List.prefix_rfl
      · exact hadded ▸ List.prefix_append _ _
  · obtain hframe | hframe := s.frame_bindAt id name v other
    · rw [hframe]
      exact hs other
    · rw [hframe]
      exact Frame.nodup_names_set (hs other) name v

theorem allocate (s : Store) (p : Procedure) : s.Grows (s.allocate p) :=
  .of_eq rfl (by simp [Store.allocate]) rfl

theorem print (s : Store) (text : Text) : s.Grows { s with output := s.output.write text } where
  frames := le_rfl
  names _ := List.prefix_rfl
  unique h := h
  procedures := List.prefix_rfl
  output := by
    rw [Tape.text_write]
    exact List.prefix_append _ _

theorem enter (s : Store) {frame : Frame} (hframe : frame.names.Nodup) (c : Stack) :
    s.Grows (s.enter frame c) := by
  refine ⟨by simp [Store.enter], fun id => ?_, fun hs id => ?_, List.prefix_rfl,
    List.prefix_rfl⟩
  · by_cases hid : id = s.frames.size
    · rw [frame_of_size_le hid.ge]
      exact List.nil_prefix
    · have hsame : (s.enter frame c).frame id = s.frame id := frame_enter_of_ne hid
      exact hsame ▸ List.prefix_rfl
  · by_cases hid : id = s.frames.size
    · rw [hid, frame_enter_size]
      exact hframe
    · rw [frame_enter_of_ne hid]
      exact hs id

theorem keepsNames (h : s.Grows t) : s.KeepsNames t := by
  refine ⟨h.frames, h.names, fun name c hname => ?_⟩
  induction c with
  | nil => exact hname
  | cons id rest ih =>
    unfold lookupIn at hname ⊢
    cases ht : (t.frame id).get? name with
    | some v => rfl
    | none =>
      have hs : (s.frame id).get? name = none := by
        rw [Frame.get?_eq_none_iff] at ht ⊢
        exact fun hmem => ht ((h.names id).subset hmem)
      rw [hs] at hname
      exact ih hname

end Grows

end Store

/-- Whatever is done to a store, nothing is lost. -/
theorem Simulation.growth : Simulation (W := Unit) (fun _ _ => True) (fun _ _ => True)
    (fun _ s t => s = t) (fun s m => s.Grows m.store) where
  allowed_mono _ _ _ := trivial
  base_mono _ _ _ := trivial
  stack_eq h := by rw [h]
  procedures_eq h := by rw [h]
  lookup_eq h _ := by rw [h]
  lookup_within _ _ _ _ := fun _ _ => trivial
  code_within h _ _ := ⟨(), le_rfl, h, ⟨fun _ _ _ _ => trivial, fun _ _ => trivial⟩⟩
  link_refl := .refl
  link_trans h h' := h.trans h'
  link_evaluating _ := .refl
  link_running _ _ := .refl
  bindAt := by
    rintro w s t rfl id _ name v _
    exact ⟨rfl, .bindAt s id name v⟩
  allocate := by
    rintro w s t rfl p _ _
    exact ⟨(), le_rfl, rfl, trivial, .allocate s p⟩
  print := by
    rintro w s t rfl text
    exact ⟨rfl, .print s text⟩
  log := by
    rintro w s t rfl logger severity message
    exact ⟨rfl, .of_eq rfl List.prefix_rfl rfl⟩
  enter := by
    rintro w s t rfl frame c _ hnames _
    exact ⟨rfl, .enter s hnames c⟩
  leave := by
    rintro w s t _ frame c _ w' s' t' _ rfl _ _
    exact ⟨rfl, .of_eq s'.frames_leave (s'.procedures_leave ▸ List.prefix_rfl) s'.output_leave⟩

open Simulation

/-- A computation that follows its traced counterpart loses nothing on the way to any of its
moments and to its end. -/
theorem grows_of_simulates {α : Type} {ok : Unit → α → Prop} {m : Run α} {n : Traced α}
    (h : Simulates (fun _ s t => s = t) (fun s m => s.Grows m.store) ok () m n) (s : Store) :
    s.Grows (Result.store (m s)) := by
  obtain ⟨agree, -, -, linked⟩ := h s s rfl
  obtain ⟨_, hst⟩ := agree.store
  rw [hst]
  exact (linked.forall_mem (P := s.Grows) (fun hlink hs => hs.trans hlink) (.refl s)).2

/-- Nothing is lost between linked moments. -/
theorem Linked.grows {s : Store} (hs : s.NamesUnique) {ms : List Moment}
    (h : ∃ t, Linked (fun s m => s.Grows m.store) s ms t) :
    (∀ m ∈ ms, m.store.NamesUnique) ∧
      ms.Pairwise fun earlier later => earlier.store.Grows later.store := by
  obtain ⟨t, linked⟩ := h
  constructor
  · exact (linked.forall_mem (P := Store.NamesUnique) (fun hlink h => hlink.unique h) hs).1
  · exact linked.pairwise (P := Store.Grows) .refl fun hlink h => h.trans hlink

/-- A new session has the global frame, which is empty. -/
theorem Store.namesUnique_initial (journal : Journal) :
    ((initial journal).push []).NamesUnique := by
  intro id
  cases id with
  | zero => exact List.nodup_nil
  | succ n => exact List.nodup_nil

theorem Session.history_grows (host : Host) (prelude : Bool) (journal : Journal)
    (steps : List (Host × Step)) :
    (∀ m ∈ history host prelude journal steps, m.store.NamesUnique) ∧
    (history host prelude journal steps).Pairwise fun earlier later =>
      earlier.store.Grows later.store := by
  obtain ⟨s, hs, hgrows⟩ := Run.register_ok (P := ((Store.initial journal).push []).Grows)
    (fun s id name v h => h.trans (.bindAt s id name v)) (fun s p h => h.trans (.allocate s _))
    (.refl _)
  exact Linked.grows (Store.namesUnique_initial journal)
    (growth.linked_history (I := fun _ => True) (fun _ => ()) (fun _ _ => trivial) (fun _ _ => rfl)
      (fun _ => trivial) host prelude hs trivial hgrows
      (given_of_forall (fun _ _ => trivial) steps _))

/-- Frames only grow. Throughout a session no frame binds a name twice, and every frame keeps its
names in their order from each moment to all later ones. The same holds for every evaluation,
program, application, import and step from any store, whatever the ending is. -/
theorem frames_only_grow (host : Host) :
    (∀ (prelude : Bool) (journal : Journal) (steps : List (Host × Session.Step)),
      (∀ m ∈ Session.history host prelude journal steps, ∀ id, (m.store.frame id).names.Nodup) ∧
      (Session.history host prelude journal steps).Pairwise fun earlier later =>
        earlier.store.KeepsNames later.store) ∧
    (∀ (depth : Nat) (e : Value) (s : Store),
      s.KeepsNames (Result.store (Run.eval host depth e s))) ∧
    (∀ (depth : Nat) (p : Program) (s : Store),
      s.KeepsNames (Result.store (Run.program (Run.eval host depth) p s))) ∧
    (∀ (depth : Nat) (f : Value) (operands : List Value) (s : Store),
      s.KeepsNames (Result.store (Run.apply host (Run.inner host depth) f operands s))) ∧
    (∀ (depth : Nat) (path : Text) (s : Store),
      s.KeepsNames (Result.store (Run.load host (Run.inner host depth) path s))) ∧
    ∀ (step : Session.Step) (s : Store), s.KeepsNames (Result.store (step.run host s)) := by
  have heval := growth.simulates_eval host
  refine ⟨fun prelude journal steps => ?_, ?_, ?_, ?_, ?_, ?_⟩
  · obtain ⟨hunique, hgrows⟩ := Session.history_grows host prelude journal steps
    exact ⟨hunique, hgrows.imp fun h => h.keepsNames⟩
  · intro depth e s
    exact (grows_of_simulates (heval depth () e fun _ _ => trivial) s).keepsNames
  · intro depth p s
    exact (grows_of_simulates
      (growth.simulates_program (heval depth) fun _ _ _ _ _ => trivial) s).keepsNames
  · intro depth f operands s
    exact (grows_of_simulates (growth.simulates_apply host depth (heval depth) (fun _ _ => trivial)
      fun _ _ _ _ => trivial) s).keepsNames
  · intro depth path s
    exact (grows_of_simulates (growth.simulates_load host depth (heval depth) path) s).keepsNames
  · intro step s
    exact (grows_of_simulates
      (growth.simulates_step (fun _ _ => trivial) host step fun _ _ _ _ => trivial) s).keepsNames

end RationalLisp
