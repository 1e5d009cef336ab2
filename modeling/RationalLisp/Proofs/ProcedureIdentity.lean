import RationalLisp.Proofs.Creations

/-!
# The identity of procedures

Two procedures are equal if and only if they come from the same creation, wherever and whenever they
are found in a session. What a creation has made stays as it was made. A procedure that is made is
unlike every procedure before it, whatever its code is.
-/

namespace RationalLisp

open Store Simulation

/-- The creation at a place of the list has made the procedure, and the procedure is as it was
made: with its name, arity and argument policy, and with its code. -/
def MadeAt (creations : List Creation) (s : Store) (i : Nat) (id : ProcId) : Prop :=
  ∃ c, creations[i]? = some c ∧ c.value = .proc id ∧ s.procedures.get id = c.procedure

/-- The creations account for the procedures in a store. All that are found in it have been made by
one of them, and they are equal if and only if they have been made by the same one. -/
structure AccountFor (creations : List Creation) (s : Store) : Prop where
  made : ∀ v, s.Holds v → ∀ id ∈ v.procs, ∃ i, MadeAt creations s i id
  same_iff : ∀ {i j x y}, MadeAt creations s i x → MadeAt creations s j y →
    ((Value.proc x).same (.proc y) = true ↔ i = j)

/-- The creations, and more of them that take place from the store on, account for the value that
comes back and for the store in which it does. -/
def AccountForValue (creations : List Creation) (s : Store) (r : Result Value) : Prop :=
  ∀ v t, r = .ok v t → ∃ more, Chronicle s more t ∧ AccountFor (creations ++ more) t ∧
    ∀ id ∈ v.procs, ∃ i, MadeAt (creations ++ more) t i id

/-- The value is a procedure that has come about on the way from one store to another. -/
def Value.New (s t : Store) (v : Value) : Prop :=
  ∃ id, v = .proc id ∧ t.Has id ∧ ∀ older, s.Has older → v.same (.proc older) = false

/-! ### Accounts -/

namespace Chronicle

variable {journal : Journal} {cs : List Creation} {s t : Store}

/-- In a chronicle from the beginning, a creation gives the procedure of its own place. -/
theorem value_eq_place (h : Chronicle (blank journal) cs s) {i : Nat} {c : Creation}
    (hc : cs[i]? = some c) : c.value = .proc i := by
  rw [h.value_eq hc]
  simp [blank]

theorem madeAt (h : Chronicle (blank journal) cs s) {id : ProcId} (hid : s.Has id) :
    MadeAt cs s id id := by
  have hsize : s.procedures.size = cs.length := by
    rw [h.size]
    simp [blank]
  rw [Has, hsize] at hid
  refine ⟨cs[id], List.getElem?_eq_getElem hid, ?_⟩
  have hc : cs[id]? = some cs[id] := List.getElem?_eq_getElem hid
  have hget := h.get_eq hc
  simp only [blank, List.size_toArray, List.length_nil, Nat.zero_add] at hget
  exact ⟨h.value_eq_place hc, hget⟩

theorem same_value_iff (h : Chronicle (blank journal) cs s) {i j : Nat} {c d : Creation}
    (hc : cs[i]? = some c) (hd : cs[j]? = some d) : c.value.same d.value = true ↔ i = j := by
  rw [h.value_eq_place hc, h.value_eq_place hd, Value.same_proc]
  exact decide_eq_true_iff

theorem accountFor (h : Chronicle (blank journal) cs s) : AccountFor cs s := by
  constructor
  · intro v hv id hid
    exact ⟨id, h.madeAt (h.sound (sound_blank journal) v hv id hid)⟩
  · rintro i j x y ⟨c, hc, hx, -⟩ ⟨d, hd, hy, -⟩
    rw [← hx, ← hy]
    exact h.same_value_iff hc hd

/-- What goes into a procedure has been made before it. -/
theorem madeIn (h : Chronicle (blank journal) cs s) {i : Nat} {c : Creation}
    (hc : cs[i]? = some c) :
    c.procedure.MadeIn (fun id => ∃ j < i, MadeAt cs c.store j id) c.store := by
  obtain ⟨hbefore, hmade⟩ := h.before hc
  refine hmade.mono fun id hid => ?_
  obtain ⟨d, hd, hgives⟩ := hbefore.madeAt hid
  have hi : id < i := by
    have hlt := (List.getElem?_eq_some_iff.mp hd).1
    exact hlt.trans_le (List.length_take_le i cs)
  rw [List.getElem?_take_of_lt hi] at hd
  exact ⟨id, hi, d, hd, hgives⟩

/-- What a run gives has been made before it or on the way. -/
theorem accountForValue (h : Chronicle (blank journal) cs s)
    (hforms : Form.all.length ≤ s.procedures.size) {m : Run Value} {n : Traced Value}
    (hm : Simulates Accounted (fun s m => ∃ cs, Chronicle s cs m.store)
      (Holding fun n id => id < n ∨ ∃ f, id = formId f) s.procedures.size m n) :
    AccountForValue cs s (m s) := by
  obtain ⟨⟨more, hmore⟩, hvalue⟩ := chronicle_of_simulates (h.sound (sound_blank journal)) hforms hm
  intro v t hv
  rw [hv] at hmore
  have hall := h.trans hmore
  refine ⟨more, hmore, hall.accountFor, fun id hid => ⟨id, hall.madeAt ?_⟩⟩
  obtain hid | ⟨f, rfl⟩ := hvalue v t hv id hid
  · exact hid
  · rw [Has, hmore.size]
    exact (formId_lt f).trans_le (hforms.trans (Nat.le_add_right _ _))

end Chronicle

/-! ### New procedures -/

/-- Whether a primitive makes procedures. -/
def Primitive.makes : Primitive → Bool
  | .form (.lambda _) => true
  | .builtin .compose => true
  | _ => false

/-- What a primitive gives that makes procedures is made there and then. -/
theorem Primitive.exists_make {p : Primitive} (hp : p.makes = true) {host : Host} {inner : Inner}
    {args : List Value} {s t : Store} {v : Value} (h : p.run host inner args s = .ok v t) :
    ∃ q, Run.make q s = .ok v t := by
  unfold makes at hp
  split at hp
  · rcases args with _ | ⟨spec, _ | ⟨body, _ | ⟨_, _⟩⟩⟩
    case cons.cons.nil =>
      cases hparams : Params.ofValue? spec with
      | some params =>
        simp only [Primitive.run, Form.run, hparams] at h
        exact ⟨_, h⟩
      | none =>
        simp only [Primitive.run, Form.run, hparams] at h
        cases h
    all_goals cases h
  · simp only [Primitive.run, Builtin.run] at h
    split at h
    · exact ⟨_, h⟩
    · cases h
  · cases hp

/-- A call of a primitive that makes procedures makes one after the operands have been evaluated. -/
theorem Run.exists_make_of_call {host : Host} {depth : Nat} {id : ProcId} {p : Primitive}
    (hp : p.makes = true) {s t : Store} (hid : s.procedures.get id = .ofPrimitive p)
    {operands : List Value} {v : Value}
    (h : call host (inner host depth) id operands s = .ok v t) :
    ∃ u q, s.Grows u ∧ make q u = .ok v t := by
  unfold call at h
  obtain ⟨q, _, hq, h⟩ := exists_of_bind_ok h
  cases hq
  obtain ⟨_, u, hcheck, h⟩ := exists_of_bind_ok h
  have hu : s.Grows u := by
    have hgrows := grows_of_simulates (growth.acts_check
      (s.procedures.get id).arity (s.procedures.get id).name operands.length) s
    rwa [hcheck] at hgrows
  rw [hid] at h
  cases hpolicy : (Procedure.ofPrimitive p).evaluatesOperands with
  | true =>
    simp only [hpolicy, if_true] at h
    obtain ⟨args, w, hargs, h⟩ := exists_of_bind_ok h
    have hw : u.Grows (Result.store (evalAll (eval host depth) operands u)) :=
      grows_of_simulates (growth.simulates_evalAll (growth.simulates_eval host depth)
        fun _ _ _ _ => trivial) u
    rw [show evalAll (eval host depth) operands u = .ok args w from hargs] at hw
    obtain ⟨q, hq⟩ := p.exists_make hp h
    exact ⟨w, q, hu.trans hw, hq⟩
  | false =>
    simp only [hpolicy, Bool.false_eq_true, if_false] at h
    obtain ⟨q, hq⟩ := p.exists_make hp h
    exact ⟨u, q, hu, hq⟩

/-- What is made later than a store is new to it. -/
theorem Value.new_of_make {s t u : Store} {q : Procedure} {v : Value} (hu : s.Grows u)
    (h : Run.make q u = .ok v t) : v.New s t := by
  cases (Creation.make_eq ⟨u, q⟩).symm.trans h
  refine ⟨u.procedures.size, rfl, by simp [Has, Store.allocate], fun older holder => ?_⟩
  have hsize : s.procedures.size ≤ u.procedures.size := by
    simpa using hu.procedures.length_le
  rw [Creation.value, same_proc]
  exact decide_eq_false (holder.trans_le hsize).ne'

/-- An expression that calls a primitive which makes procedures has a new procedure as its value. -/
theorem Run.new_of_eval_call {host : Host} {depth : Nat} {head tail : Value} {s u t : Store}
    {id : ProcId} {p : Primitive} {v : Value} (hhead : eval host depth head s = .ok (.proc id) u)
    (hid : u.procedures.get id = .ofPrimitive p) (hp : p.makes = true)
    (h : eval host (depth + 1) (.cell head tail) s = .ok v t) : v.New s t := by
  have hu := grows_of_simulates (growth.simulates_eval host depth () head fun _ _ => trivial) s
  rw [hhead] at hu
  rw [eval, evalStep, bind_of_ok hhead] at h
  cases hoperands : tail.toList? with
  | some operands =>
    simp only [hoperands] at h
    obtain ⟨w, q, hw, hq⟩ := exists_make_of_call hp hid h
    exact Value.new_of_make (hu.trans hw) hq
  | none =>
    simp only [hoperands] at h
    obtain ⟨_, _, _, h⟩ := exists_of_bind_ok h
    cases h

/-! ### Sessions -/

/-- The identity of procedures is sound over whole sessions. A session has one list of creations,
which give equal procedures only if they are the same creation; what goes into a procedure has been
made before it. At every moment the creations so far account for the procedures in the store, and,
together with those on the way, for what an evaluation or a step from there gives. Every run and
every call of a primitive that makes procedures gives one that is new. -/
theorem procedure_identity_sound (host : Host) (prelude : Bool) (journal : Journal)
    (steps : List (Host × Session.Step))
    (hgiven : Session.Given Store.Has steps
      (Result.store (Session.start host prelude (.initial journal)))) :
    (∃ creations : List Creation,
      (∀ (i j : Nat) (c d : Creation), creations[i]? = some c → creations[j]? = some d →
        (c.value.same d.value = true ↔ i = j)) ∧
      (∀ (i : Nat) (c : Creation), creations[i]? = some c →
        c.procedure.MadeIn (fun id => ∃ j < i, MadeAt creations c.store j id) c.store) ∧
      ∀ m ∈ Session.history host prelude journal steps, ∃ sofar, sofar <+: creations ∧
        Chronicle (blank journal) sofar m.store ∧ AccountFor sofar m.store ∧
        (∀ (host' : Host) (depth : Nat) (e : Value), e.Within m.store.Has →
          AccountForValue sofar m.store (Run.eval host' depth e m.store)) ∧
        ∀ (host' : Host) (step : Session.Step),
          (∀ e, step = .evaluate e → e.Within m.store.Has) →
          AccountForValue sofar m.store (step.run host' m.store)) ∧
    (∀ (host' : Host) (inner : Inner) (p : Primitive) (args : List Value) (s t : Store) (v : Value),
      p.makes = true → p.run host' inner args s = .ok v t → v.New s t) ∧
    ∀ (host' : Host) (depth : Nat) (head tail : Value) (s u t : Store) (id : ProcId)
      (p : Primitive) (v : Value),
      Run.eval host' depth head s = .ok (.proc id) u → u.procedures.get id = .ofPrimitive p →
      p.makes = true → Run.eval host' (depth + 1) (.cell head tail) s = .ok v t → v.New s t := by
  refine ⟨?_, ?_, fun _ _ _ _ _ _ _ _ _ _ => Run.new_of_eval_call⟩
  · obtain ⟨creations, t, hall, hmoments⟩ :=
      Session.history_chronicle host prelude journal hgiven
    refine ⟨creations, fun _ _ _ _ => hall.same_value_iff, fun _ _ => hall.madeIn, fun m hm => ?_⟩
    obtain ⟨sofar, hsofar, h, hforms⟩ := hmoments m hm
    refine ⟨sofar, hsofar, h, h.accountFor, fun host' depth e he => ?_, fun host' step hstep => ?_⟩
    · exact h.accountForValue hforms
        (chronicles.simulates_eval host' depth _ e (he.mono fun _ hid => .inl hid))
    · exact h.accountForValue hforms (chronicles.simulates_step (fun _ f => .inr ⟨f, rfl⟩) host'
        step fun e he => (hstep e he).mono fun _ hid => .inl hid)
  · intro host' inner p args s t v hp h
    obtain ⟨q, hq⟩ := p.exists_make hp h
    exact Value.new_of_make (.refl s) hq

/-- A call of `lambda` in which the form itself stands at the head. -/
def lambdaCall : Value := .ofList [.proc (formId (.lambda ⟨false, true⟩)), .null, .num 1]

/-- The same expression gives two procedures with the same code, which are not equal. -/
theorem procedure_identity_sound_twins :
    Session.Given Store.Has [(.bare, .evaluate lambdaCall)]
      (Result.store (Session.start .bare false (.initial .empty))) ∧
    ∃ (x y : ProcId) (t u : Store),
      Run.eval .bare 2 lambdaCall (.initial .empty) = .ok (.proc x) t ∧
      Run.eval .bare 2 lambdaCall t = .ok (.proc y) u ∧
      u.procedures.get x = u.procedures.get y ∧ (Value.proc y).same (.proc x) = false := by
  have hgiven : Session.Given Store.Has [(.bare, .evaluate lambdaCall)]
      (Result.store (Session.start .bare false (.initial .empty))) := by
    refine ⟨?_, trivial⟩
    intro e he id hid
    cases he
    have hform : id = formId (.lambda ⟨false, true⟩) := by
      simpa [lambdaCall, Value.ofList, Value.chain, Value.procs] using hid
    rw [hform]
    decide +kernel
  let t : Store := (Store.initial .empty).allocate (.closure true (.fixed []) (.num 1) [])
  have hfirst : Run.eval .bare 2 lambdaCall (.initial .empty) = .ok (.proc 12) t := rfl
  obtain ⟨u, hsecond, hcode⟩ : ∃ u, Run.eval .bare 2 lambdaCall t = .ok (.proc 13) u ∧
      u.procedures.get 12 = u.procedures.get 13 := ⟨_, rfl, rfl⟩
  obtain ⟨-, -, hcall⟩ := procedure_identity_sound .bare false .empty _ hgiven
  obtain ⟨_, -, -, hnew⟩ := hcall .bare 1 _ _ t t u _ _ _ rfl rfl rfl hsecond
  exact ⟨hgiven, 12, 13, t, u, hfirst, hsecond, hcode, hnew 12 (by decide)⟩

end RationalLisp
