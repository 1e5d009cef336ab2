import RationalLisp.Proofs.Growth
import RationalLisp.Proofs.OrderlyStores

/-!
# The creations of a run

Every procedure comes from one creation. A chronicle of a run lists its creations in their order,
each with the store in which it took place. In a chronicle only procedures that have been created
before are bound to names, put into code or composed. All runs have chronicles, and a session has
one that begins before the forms have been made.
-/

namespace RationalLisp

namespace Store

/-- The procedure has been made. -/
def Has (s : Store) (id : ProcId) : Prop := id < s.procedures.size

instance (s : Store) (id : ProcId) : Decidable (s.Has id) :=
  inferInstanceAs (Decidable (id < s.procedures.size))

/-- The values in a store: those bound in its frames and those in the code of its procedures. -/
inductive Holds (s : Store) : Value → Prop
  | bound {id : FrameId} {binding : Text × Value} : binding ∈ s.frame id → Holds s binding.2
  | inside {id : ProcId} {body : Value} :
      body ∈ (s.procedures.get id).code.bodies → Holds s body

/-- Every procedure that occurs in the store has been made. -/
def Sound (s : Store) : Prop := ∀ v, s.Holds v → v.Within s.Has

/-- The store before the forms have been made. -/
def blank (journal : Journal) : Store := { initial journal with procedures := #[] }

end Store

open Store

/-- The creation of a procedure: the store in which it is made, and the procedure. -/
structure Creation where
  store : Store
  procedure : Procedure

/-- The value that a creation gives. -/
def Creation.value (c : Creation) : Value := .proc c.store.procedures.size

/-- Making the procedure gives the value and adds the procedure to the table. -/
theorem Creation.make_eq (c : Creation) :
    Run.make c.procedure c.store = .ok c.value (c.store.allocate c.procedure) := rfl

/-- A change of the store in which nothing is made. Only procedures that are there are bound. -/
inductive Store.Turn (s : Store) : Store → Prop
  | bindAt (id : FrameId) (name : Text) {v : Value} : v.Within s.Has → Turn s (s.bindAt id name v)
  | write (output : Tape) (journal : Journal) :
      Turn s { s with output := output, journal := journal }
  | push : Turn s (s.push [])
  | enter {frame : Frame} (c : Stack) : frame.Within s.Has → Turn s (s.enter frame c)
  | leave : Turn s s.leave

/-- The creations lead from one store to another. The parts of what is created are there before. -/
inductive Chronicle (s : Store) : List Creation → Store → Prop
  | refl : Chronicle s [] s
  | turn {cs : List Creation} {t u : Store} : Chronicle s cs t → t.Turn u → Chronicle s cs u
  | make {cs : List Creation} {t : Store} {p : Procedure} : Chronicle s cs t → p.MadeIn t.Has t →
      Chronicle s (cs ++ [⟨t, p⟩]) (t.allocate p)

/-! ### Turns and creations -/

theorem Store.Turn.procedures_eq {s t : Store} (h : s.Turn t) : t.procedures = s.procedures := by
  cases h with
  | leave => exact s.procedures_leave
  | _ => rfl

theorem Procedure.MadeIn.mono {allowed allowed' : ProcId → Prop} {s : Store} {p : Procedure}
    (h : p.MadeIn allowed s) (hle : ∀ id, allowed id → allowed' id) : p.MadeIn allowed' s := by
  cases h with
  | primitive p => exact .primitive p
  | closure evaluates params hbody => exact .closure evaluates params (hbody.mono hle)
  | composition houter hinner => exact .composition (hle _ houter) (hle _ hinner)

namespace Store.Sound

variable {s t : Store}

theorem frame (h : s.Sound) (id : FrameId) : (s.frame id).Within s.Has :=
  fun _ hb => h _ (.bound hb)

theorem lookup (h : s.Sound) {name : Text} {v : Value} (hv : s.lookup? name = some v) :
    v.Within s.Has := by
  have hstack : ∀ c : Stack, s.lookupIn name c = some v → v.Within s.Has := by
    intro c
    induction c with
    | nil => exact fun hv => nomatch hv
    | cons id rest ih =>
      intro hv
      unfold lookupIn at hv
      split at hv
      · rename_i u hu
        cases hv
        exact (h.frame id).get? hu
      · exact ih hv
  exact hstack s.stack hv

theorem code (h : s.Sound) (id : ProcId) :
    (s.procedures.get id).code.Within s.Has fun _ => True :=
  ⟨fun _ hbody => h _ (.inside hbody), fun _ _ => trivial⟩

/-- A turn keeps the table of procedures and binds only what is in it. -/
theorem turn (h : s.Sound) (ht : s.Turn t) : t.Sound := by
  have hprocedures := ht.procedures_eq
  have hhas : t.Has = s.Has := by
    funext id
    rw [Has, Has, hprocedures]
  have hframe : ∀ id, (t.frame id).Within s.Has := by
    intro id
    cases ht with
    | bindAt target name hv =>
      obtain heq | heq := s.frame_bindAt target name _ id
      · rw [heq]
        exact h.frame id
      · rw [heq]
        exact (h.frame id).set name hv
    | write => exact h.frame id
    | push =>
      by_cases hid : id = s.frames.size
      · simp [Store.frame, Store.push, hid]
      · have heq : (s.push []).frame id = s.frame id := by
          simp [Store.frame, Store.push, Array.getD_eq_getD_getElem?, Array.getElem?_push, hid]
        rw [heq]
        exact h.frame id
    | enter c hnew =>
      by_cases hid : id = s.frames.size
      · rw [hid, frame_enter_size]
        exact hnew
      · rw [frame_enter_of_ne hid]
        exact h.frame id
    | leave =>
      rw [Store.frame, s.frames_leave]
      exact h.frame id
  rintro v (hv | hv)
  · rw [hhas]
    exact hframe _ _ hv
  · rw [hhas]
    rw [hprocedures] at hv
    exact h _ (.inside hv)

/-- The bodies in a new procedure come from where its parts come from. -/
theorem bodies (h : s.Sound) {p : Procedure} (hp : p.MadeIn s.Has s) {body : Value}
    (hbody : body ∈ p.code.bodies) : body.Within s.Has := by
  cases hp with
  | primitive p => exact nomatch hbody
  | closure evaluates params hb =>
    rw [List.mem_singleton.mp hbody]
    exact hb
  | composition houter hinner =>
    obtain hb | hb := List.mem_append.mp hbody
    · exact h _ (.inside hb)
    · exact h _ (.inside hb)

theorem make (h : s.Sound) {p : Procedure} (hp : p.MadeIn s.Has s) : (s.allocate p).Sound := by
  have hhas : ∀ id, s.Has id → (s.allocate p).Has id := by
    intro id hid
    simp only [Has, allocate, Array.size_push]
    exact Nat.lt_succ_of_lt hid
  rintro v (hv | hv)
  · exact (h _ (.bound hv)).mono hhas
  · rename_i id
    refine Value.Within.mono ?_ hhas
    rw [show (s.allocate p).procedures = s.procedures.push p from rfl, Procedures.get_push] at hv
    split at hv
    · exact h.bodies hp hv
    · exact h _ (.inside hv)

end Store.Sound

/-! ### Chronicles -/

namespace Chronicle

variable {s t u : Store} {cs ds : List Creation}

theorem sound (h : Chronicle s cs t) (hs : s.Sound) : t.Sound := by
  induction h with
  | refl => exact hs
  | turn _ hturn ih => exact ih.turn hturn
  | make _ hp ih => exact ih.make hp

theorem trans (h : Chronicle s cs t) (h' : Chronicle t ds u) : Chronicle s (cs ++ ds) u := by
  induction h' with
  | refl =>
    rw [List.append_nil]
    exact h
  | turn _ hturn ih => exact ih.turn hturn
  | make _ hp ih =>
    rw [← List.append_assoc]
    exact ih.make hp

theorem of_turn (h : s.Turn t) : Chronicle s [] t := .turn .refl h

theorem of_make {p : Procedure} (h : p.MadeIn s.Has s) : Chronicle s [⟨s, p⟩] (s.allocate p) :=
  .make .refl h

/-- The table of procedures is the list of what has been created. -/
theorem procedures (h : Chronicle s cs t) :
    t.procedures.toList = s.procedures.toList ++ cs.map Creation.procedure := by
  induction h with
  | refl => simp
  | turn _ hturn ih => rw [hturn.procedures_eq, ih]
  | make _ _ ih =>
    rw [List.map_append, ← List.append_assoc, ← ih]
    simp [allocate]

theorem size (h : Chronicle s cs t) : t.procedures.size = s.procedures.size + cs.length := by
  have hlength := congrArg List.length h.procedures
  simpa using hlength

/-- The chronicle up to a creation leads to the store in which it took place. -/
theorem before (h : Chronicle s cs t) {i : Nat} {c : Creation} (hc : cs[i]? = some c) :
    Chronicle s (cs.take i) c.store ∧ c.procedure.MadeIn c.store.Has c.store := by
  induction h with
  | refl => exact absurd hc (by simp)
  | turn _ _ ih => exact ih hc
  | @make cs t p h hp ih =>
    by_cases hi : i < cs.length
    · rw [List.getElem?_append_left hi] at hc
      rw [List.take_append_of_le_length hi.le]
      exact ih hc
    · -- nothing comes after the last creation
      have hlength := (List.getElem?_eq_some_iff.mp hc).1
      obtain rfl : i = cs.length := by simp at hlength; omega
      obtain rfl : ⟨t, p⟩ = c := by simpa using hc
      rw [List.take_left]
      exact ⟨h, hp⟩

theorem value_eq (h : Chronicle s cs t) {i : Nat} {c : Creation} (hc : cs[i]? = some c) :
    c.value = .proc (s.procedures.size + i) := by
  have hi := (List.getElem?_eq_some_iff.mp hc).1
  rw [Creation.value, (h.before hc).1.size, List.length_take, Nat.min_eq_left hi.le]

theorem get_eq (h : Chronicle s cs t) {i : Nat} {c : Creation} (hc : cs[i]? = some c) :
    t.procedures.get (s.procedures.size + i) = c.procedure := by
  have hlist : t.procedures.toList[s.procedures.size + i]? = some c.procedure := by
    rw [h.procedures, ← Array.length_toList, List.getElem?_append_right (by simp)]
    simp [hc]
  rw [Procedures.get, Array.getD_eq_getD_getElem?, ← Array.getElem?_toList, hlist]
  rfl

end Chronicle

/-! ### Runs -/

/-- Two equal stores with so many procedures, the forms among them, and with no others in their
values. -/
structure Accounted (n : Nat) (s t : Store) : Prop where
  eq : s = t
  size : s.procedures.size = n
  forms : Form.all.length ≤ n
  sound : s.Sound

theorem formId_lt (f : Form) : formId f < Form.all.length := by
  apply List.idxOf_lt_length_of_mem
  cases f with
  | lambda k =>
    obtain ⟨_ | _, _ | _⟩ := k
    all_goals decide
  | _ => decide

/-- All runs have chronicles. The world is the number of procedures that have been made. -/
theorem Simulation.chronicles : Simulation (fun n id => id < n ∨ ∃ f, id = formId f)
    (fun _ _ => True) Accounted (fun s m => ∃ cs, Chronicle s cs m.store) := by
  have hhas : ∀ {n s t id}, Accounted n s t → (id < n ∨ ∃ f, id = formId f) → s.Has id := by
    intro n s t id h hid
    rw [Has, h.size]
    obtain hid | ⟨f, rfl⟩ := hid
    · exact hid
    · exact (formId_lt f).trans_le h.forms
  have hwithin : ∀ {n s t}, Accounted n s t → ∀ {v : Value}, v.Within s.Has →
      v.Within fun id => id < n ∨ ∃ f, id = formId f :=
    fun h _ hv => hv.mono fun _ hid => .inl (h.size ▸ hid)
  have hturn : ∀ {n s t u}, Accounted n s t → s.Turn u →
      Accounted n u u ∧ ∃ cs, Chronicle t cs u := by
    intro n s t u h hu
    refine ⟨⟨rfl, ?_, h.forms, h.sound.turn hu⟩, [], ?_⟩
    · rw [hu.procedures_eq]
      exact h.size
    · rw [← h.eq]
      exact .of_turn hu
  constructor
  case allowed_mono => exact fun hle id => Or.imp_left fun hid => hid.trans_le hle
  case base_mono => exact fun _ _ _ => trivial
  case stack_eq => exact fun h => by rw [h.eq]
  case procedures_eq => exact fun h => by rw [h.eq]
  case lookup_eq => exact fun h _ => by rw [h.eq]
  case lookup_within => exact fun h _ _ hv => hwithin h (h.sound.lookup hv)
  case code_within =>
    intro n s t h id _
    have hcode := h.sound.code id
    exact ⟨n, le_rfl, h, fun body hbody => hwithin h (hcode.bodies body hbody), hcode.captures⟩
  case link_refl => exact fun t => ⟨[], .refl⟩
  case link_trans => exact fun ⟨cs, h⟩ ⟨ds, h'⟩ => ⟨cs ++ ds, h.trans h'⟩
  case link_evaluating => exact fun _ t => ⟨[], .refl⟩
  case link_running => exact fun _ _ t => ⟨[], .refl⟩
  case bindAt =>
    intro n s t h id _ name v hv
    obtain rfl := h.eq
    exact hturn h (.bindAt id name (hv.mono fun _ => hhas h))
  case allocate =>
    intro n s t h p hp _
    obtain rfl := h.eq
    have hp' := hp.mono fun _ => hhas h
    have hsize : (s.allocate p).procedures.size = n + 1 := by simp [Store.allocate, h.size]
    exact ⟨n + 1, Nat.le_succ n, ⟨rfl, hsize, h.forms.trans (Nat.le_succ n), h.sound.make hp'⟩,
      .inl (by rw [h.size]; exact Nat.lt_succ_self n), _, .of_make hp'⟩
  case print =>
    intro n s t h text
    obtain rfl := h.eq
    exact hturn h (.write _ _)
  case log =>
    intro n s t h logger severity message
    obtain rfl := h.eq
    exact hturn h (.write _ _)
  case enter =>
    intro n s t h frame c hframe _ _
    obtain rfl := h.eq
    exact hturn h (.enter c fun b hb => (hframe b hb).mono fun _ => hhas h)
  case leave =>
    intro n s t _ frame c _ n' s' t' _ h _ _
    obtain rfl := h.eq
    exact hturn h .leave

/-- A run from a sound store has a chronicle, and what it gives is good in the store that it leads
to. -/
theorem chronicle_of_simulates {α : Type} {ok : Nat → α → Prop} {m : Run α} {n : Traced α}
    {s : Store} (hs : s.Sound) (hforms : Form.all.length ≤ s.procedures.size)
    (h : Simulates Accounted (fun s m => ∃ cs, Chronicle s cs m.store) ok s.procedures.size m n) :
    (∃ cs, Chronicle s cs (Result.store (m s))) ∧
      ∀ a t, m s = .ok a t → ok t.procedures.size a := by
  obtain ⟨agree, -, -, linked⟩ := h s s ⟨rfl, rfl, hforms, hs⟩
  constructor
  · obtain ⟨_, hst⟩ := agree.store
    rw [hst.eq]
    refine (linked.forall_mem (P := fun t => ∃ cs, Chronicle s cs t) ?_ ⟨[], .refl⟩).2
    rintro t m ⟨ds, hds⟩ ⟨cs, hcs⟩
    exact ⟨cs ++ ds, hcs.trans hds⟩
  · intro a t ha
    rw [ha] at agree
    generalize (n s).2 = r at agree
    cases agree with
    | ok _ hok hst =>
      rw [hst.size]
      exact hok

/-! ### Sessions -/

/-- Moments that are linked by chronicles have one chronicle. -/
theorem Linked.chronicle {s : Store} {ms : List Moment}
    (h : ∃ t, Linked (fun s m => ∃ cs, Chronicle s cs m.store) s ms t) :
    ∃ creations t, Chronicle s creations t ∧
      ∀ m ∈ ms, ∃ sofar, sofar <+: creations ∧ Chronicle s sofar m.store := by
  obtain ⟨t, h⟩ := h
  induction ms generalizing s with
  | nil =>
    obtain ⟨creations, h⟩ := h
    exact ⟨creations, t, h, by simp⟩
  | cons m ms ih =>
    obtain ⟨⟨first, hfirst⟩, hlater⟩ := h
    obtain ⟨creations, u, hall, hms⟩ := ih hlater
    refine ⟨first ++ creations, u, hfirst.trans hall, ?_⟩
    intro m' hm'
    obtain rfl | hm' := List.mem_cons.mp hm'
    · exact ⟨first, List.prefix_append _ _, hfirst⟩
    · obtain ⟨sofar, hsofar, h⟩ := hms m' hm'
      exact ⟨first ++ sofar, (List.prefix_append_right_inj first).mpr hsofar, hfirst.trans h⟩

/-- Making primitives one after the other. -/
theorem chronicle_primitives (ps : List Primitive) (s : Store) :
    ∃ cs, Chronicle s cs
      { s with procedures := s.procedures ++ (ps.map Procedure.ofPrimitive).toArray } := by
  induction ps generalizing s with
  | nil => exact ⟨[], by simpa using .refl⟩
  | cons p ps ih =>
    obtain ⟨cs, h⟩ := ih (s.allocate (.ofPrimitive p))
    refine ⟨⟨s, .ofPrimitive p⟩ :: cs, (Chronicle.of_make (.primitive p)).trans ?_⟩
    simpa [allocate] using h

theorem sound_blank (journal : Journal) : (blank journal).Sound := by
  rintro v (hv | hv)
  · exact absurd hv (by simp [Store.frame, blank, Store.initial])
  · exact absurd hv (by simp [Procedures.get, blank]; exact List.not_mem_nil)

/-- The chronicle of a session begins with the forms. The global frame comes next, and then the
builtins are made and bound in it. -/
theorem chronicle_register (journal : Journal) : ∃ registered,
    Run.register (.initial journal) = .ok () registered ∧
      Form.all.length ≤ registered.procedures.size ∧
      ∃ cs, Chronicle (blank journal) cs registered := by
  obtain ⟨forms, hforms⟩ := chronicle_primitives (Form.all.map .form) (blank journal)
  have hinitial : { blank journal with
      procedures := (blank journal).procedures ++
        ((Form.all.map Primitive.form).map Procedure.ofPrimitive).toArray } = initial journal := rfl
  rw [hinitial] at hforms
  refine Run.register_keeps (P := fun t => Form.all.length ≤ t.procedures.size ∧
    ∃ cs, Chronicle (blank journal) cs t) ?_ ?_ ⟨le_rfl, forms, hforms.turn .push⟩
  · rintro s id name q hq ⟨hsize, cs, hcs⟩
    have hhas : s.Has q := by
      obtain hq | ⟨f, rfl⟩ := hq
      · exact hq
      · exact (formId_lt f).trans_le hsize
    exact ⟨hsize, cs, hcs.turn (.bindAt id name ((Value.within_proc q).mpr hhas))⟩
  · rintro s p ⟨hsize, cs, hcs⟩
    refine ⟨?_, _, hcs.make (.primitive p)⟩
    simp only [allocate, Array.size_push]
    exact hsize.trans (Nat.le_succ _)

theorem Session.Given.mono {known known' : Store → ProcId → Prop} {steps : List (Host × Step)}
    {s : Store} (h : Given known steps s) (hle : ∀ s id, known s id → known' s id) :
    Given known' steps s := by
  induction steps generalizing s with
  | nil => trivial
  | cons step steps ih => exact ⟨fun e he => (h.1 e he).mono (hle s), ih h.2⟩

/-- A session has a chronicle, and each of its moments an initial part of it. The forms have been
made by then. -/
theorem Session.history_chronicle (host : Host) (prelude : Bool) (journal : Journal)
    {steps : List (Host × Step)}
    (hgiven : Given Store.Has steps (Result.store (start host prelude (.initial journal)))) :
    ∃ creations t, Chronicle (blank journal) creations t ∧
      ∀ m ∈ history host prelude journal steps, ∃ sofar, sofar <+: creations ∧
        Chronicle (blank journal) sofar m.store ∧
        Form.all.length ≤ m.store.procedures.size := by
  obtain ⟨registered, hregister, hforms, cs, hcs⟩ := chronicle_register journal
  obtain ⟨creations, t, hall, hmoments⟩ := Linked.chronicle
    (Simulation.chronicles.linked_history
      (I := fun s => Form.all.length ≤ s.procedures.size ∧ s.Sound) (fun s => s.procedures.size)
      (fun _ f => .inr ⟨f, rfl⟩) (fun s hs => ⟨rfl, rfl, hs.1, hs.2⟩)
      (fun h => ⟨h.size.symm ▸ h.forms, h.sound⟩) host prelude hregister
      ⟨hforms, hcs.sound (sound_blank journal)⟩ ⟨[], .refl⟩ (hgiven.mono fun _ _ hid => .inl hid))
  refine ⟨cs ++ creations, t, hcs.trans hall, fun m hm => ?_⟩
  obtain ⟨sofar, hsofar, h⟩ := hmoments m hm
  refine ⟨cs ++ sofar, (List.prefix_append_right_inj cs).mpr hsofar, hcs.trans h, ?_⟩
  rw [h.size]
  exact hforms.trans (Nat.le_add_right _ _)

end RationalLisp
