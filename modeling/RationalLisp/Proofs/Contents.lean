import RationalLisp.Eval

/-!
# What values and code hold

A value may hold procedures, and the code of a procedure may hold expressions and captured stacks.
Whatever is taken out of a value, put into a frame or passed on as an operand holds no procedure
that was not held before.
-/

namespace RationalLisp

namespace Value

/-- The procedures that occur in a value. -/
def procs : Value → List ProcId
  | .cell head tail => head.procs ++ tail.procs
  | .proc id => [id]
  | _ => []

/-- Every procedure in the value is one of those allowed. -/
def Within (allowed : ProcId → Prop) (v : Value) : Prop := ∀ id ∈ v.procs, allowed id

variable {allowed allowed' : ProcId → Prop}

@[simp] theorem within_atom (name : Text) : (atom name).Within allowed := by simp [Within, procs]

@[simp] theorem within_num (q : Rat) : (num q).Within allowed := by simp [Within, procs]

@[simp] theorem within_bool (b : Bool) : (bool b).Within allowed := by simp [Within, procs]

@[simp] theorem within_null : null.Within allowed := by simp [Within, procs]

@[simp] theorem within_proc (id : ProcId) : (proc id).Within allowed ↔ allowed id := by
  simp [Within, procs]

@[simp] theorem within_cell (head tail : Value) :
    (cell head tail).Within allowed ↔ head.Within allowed ∧ tail.Within allowed := by
  simp [Within, procs, or_imp, forall_and]

theorem Within.mono {v : Value} (h : v.Within allowed) (hle : ∀ id, allowed id → allowed' id) :
    v.Within allowed' := fun id hid => hle id (h id hid)

/-! ### Lists -/

@[simp] theorem within_chain (xs : List Value) (last : Value) :
    (chain xs last).Within allowed ↔ (∀ x ∈ xs, x.Within allowed) ∧ last.Within allowed := by
  induction xs with
  | nil => simp [chain]
  | cons x xs ih => simp [chain, ih, and_assoc]

@[simp] theorem within_ofList (xs : List Value) :
    (ofList xs).Within allowed ↔ ∀ x ∈ xs, x.Within allowed := by
  simp [ofList]

@[simp] theorem within_ofText (t : Text) : (ofText t).Within allowed := by
  simp [ofText, ofCodePoint]

theorem chain_append (xs ys : List Value) (last : Value) :
    chain (xs ++ ys) last = chain xs (chain ys last) := by
  induction xs with
  | nil => rfl
  | cons x xs ih => simp [chain, ih]

theorem chain_reverse_cons (items : List Value) (head tail : Value) :
    chain (head :: items).reverse tail = chain items.reverse (.cell head tail) := by
  rw [List.reverse_cons, chain_append]
  rfl

/-- Taking a chain apart and putting its heads back gives the chain. -/
theorem chain_unchainOnto (seen : List Value) (v : Value) :
    chain (unchainOnto seen v).1.reverse (unchainOnto seen v).2 = chain seen.reverse v := by
  induction v generalizing seen with
  | cell head tail _ ih =>
    rw [unchainOnto, ih]
    simp [chain_append, chain]
  | _ => rfl

/-- A value with a list of elements is the proper list of them. -/
theorem eq_ofList_of_toList? {v : Value} {xs : List Value} (h : v.toList? = some xs) :
    v = ofList xs := by
  have hv := chain_unchainOnto [] v
  simp only [toList?, unchain] at h
  split at h
  · rename_i ys heq
    simp only [Prod.mk.injEq] at heq
    simp only [Option.some.injEq] at h
    rw [heq.1, heq.2, h] at hv
    exact hv.symm
  · simp at h

@[simp] theorem toList?_ofList (xs : List Value) : (ofList xs).toList? = some xs := by
  have hunchain : ∀ seen : List Value,
      unchainOnto seen (chain xs .null) = (xs.reverse ++ seen, .null) := by
    induction xs with
    | nil => exact fun _ => rfl
    | cons x xs ih =>
      intro seen
      rw [chain, unchainOnto, ih]
      simp
  simp [toList?, unchain, ofList, hunchain]

theorem Within.of_mem_toList? {v x : Value} {xs : List Value} (h : v.Within allowed)
    (hxs : v.toList? = some xs) (hx : x ∈ xs) : x.Within allowed := by
  rw [eq_ofList_of_toList? hxs, within_ofList] at h
  exact h x hx

end Value

/-! ### Frames -/

namespace Frame

/-- Every value in the frame holds only procedures that are allowed. -/
def Within (allowed : ProcId → Prop) (frame : Frame) : Prop :=
  ∀ binding ∈ frame, binding.2.Within allowed

variable {allowed allowed' : ProcId → Prop}

@[simp] theorem within_nil : Within allowed [] := by simp [Within]

@[simp] theorem within_cons (binding : Text × Value) (frame : Frame) :
    Within allowed (binding :: frame) ↔ binding.2.Within allowed ∧ frame.Within allowed := by
  simp [Within]

theorem Within.set {frame : Frame} (h : frame.Within allowed) (name : Text) {v : Value}
    (hv : v.Within allowed) : (frame.set name v).Within allowed := by
  induction frame with
  | nil => simp [Frame.set, hv]
  | cons binding rest ih =>
    rw [within_cons] at h
    unfold Frame.set
    split
    · exact (within_cons _ _).mpr ⟨hv, h.2⟩
    · exact (within_cons _ _).mpr ⟨h.1, ih h.2⟩

theorem Within.get? {frame : Frame} (h : frame.Within allowed) {name : Text} {v : Value}
    (hv : frame.get? name = some v) : v.Within allowed := by
  induction frame with
  | nil => simp [Frame.get?] at hv
  | cons binding rest ih =>
    rw [within_cons] at h
    unfold Frame.get? at hv
    split at hv
    · simp only [Option.some.injEq] at hv
      exact hv ▸ h.1
    · exact ih h.2 hv

/-- What every binding keeps holds of a frame of pairs. -/
theorem ofPairs_induction {P : Frame → Prop} {pairs : List (Text × Value)} (hnil : P [])
    (hset : ∀ frame, P frame → ∀ p ∈ pairs, P (frame.set p.1 p.2)) : P (ofPairs pairs) := by
  have hfold : ∀ frame : Frame, P frame →
      P (pairs.foldl (fun frame p => frame.set p.1 p.2) frame) := by
    induction pairs with
    | nil => exact fun frame hf => hf
    | cons p pairs ih =>
      intro frame hf
      rw [List.foldl_cons]
      exact ih (fun frame hf q hq => hset frame hf q (List.mem_cons_of_mem _ hq)) _
        (hset frame hf p List.mem_cons_self)
  exact hfold [] hnil

theorem within_ofPairs {pairs : List (Text × Value)} (h : ∀ p ∈ pairs, p.2.Within allowed) :
    (ofPairs pairs).Within allowed :=
  ofPairs_induction within_nil fun _ hf p hp => hf.set p.1 (h p hp)

theorem nodup_names_set {frame : Frame} (h : frame.names.Nodup) (name : Text) (v : Value) :
    (frame.set name v).names.Nodup := by
  obtain hsame | ⟨hnew, hadded⟩ := names_set name v frame
  · rw [hsame]
    exact h
  · rw [hadded]
    refine List.nodup_append.mpr ⟨h, by simp, fun n hn n' hn' heq => hnew ?_⟩
    rwa [← List.mem_singleton.mp hn', ← heq]

end Frame

/-- A closure's frame holds only what its operands hold. -/
theorem Params.within_bind {allowed : ProcId → Prop} (params : Params) {args : List Value}
    (h : ∀ v ∈ args, v.Within allowed) : (params.bind args).Within allowed := by
  cases params with
  | fixed names =>
    apply Frame.within_ofPairs
    intro p hp
    exact h p.2 (List.of_mem_zip hp).2
  | variadic => simpa [bind] using h

/-- A closure's frame binds each name once, even if a parameter is repeated. -/
theorem Params.nodup_names_bind (params : Params) (args : List Value) :
    (params.bind args).names.Nodup := by
  cases params with
  | fixed names =>
    exact Frame.ofPairs_induction (P := fun frame => frame.names.Nodup) (by simp [Frame.names])
      fun _ hf p _ => Frame.nodup_names_set hf p.1 p.2
  | variadic => simp [bind, Frame.names]

/-! ### Code -/

namespace Code

/-- The stacks that the closures in a piece of code have captured. -/
def captures : Code → List (List FrameId)
  | .closure _ _ captured => [captured]
  | .composition _ _ outer inner => outer.captures ++ inner.captures
  | .primitive _ | .operands => []

/-- The bodies of the closures in a piece of code. -/
def bodies : Code → List Value
  | .closure _ body _ => [body]
  | .composition _ _ outer inner => outer.bodies ++ inner.bodies
  | .primitive _ | .operands => []

/-- The bodies hold only procedures that are allowed, and only allowed stacks are captured. -/
structure Within (allowed : ProcId → Prop) (base : List FrameId → Prop) (code : Code) : Prop where
  bodies : ∀ body ∈ code.bodies, body.Within allowed
  captures : ∀ c ∈ code.captures, base c

variable {allowed allowed' : ProcId → Prop} {base base' : List FrameId → Prop}

theorem Within.mono {code : Code} (h : code.Within allowed base)
    (hle : ∀ id, allowed id → allowed' id) (hbase : ∀ c, base c → base' c) :
    code.Within allowed' base' :=
  ⟨fun body hb => (h.bodies body hb).mono hle, fun c hc => hbase c (h.captures c hc)⟩

theorem within_closure {params : Params} {body : Value} {captured : List FrameId} :
    (closure params body captured).Within allowed base ↔ body.Within allowed ∧ base captured := by
  constructor
  · intro h
    exact ⟨h.bodies body (by simp [Code.bodies]), h.captures captured (by simp [Code.captures])⟩
  · rintro ⟨hb, hc⟩
    exact ⟨by simpa [Code.bodies] using hb, by simpa [Code.captures] using hc⟩

theorem within_composition {name : Text} {arity : Arity} {outer inner : Code} :
    (composition name arity outer inner).Within allowed base ↔
      outer.Within allowed base ∧ inner.Within allowed base := by
  constructor
  · intro h
    refine ⟨⟨fun b hb => h.bodies b ?_, fun c hc => h.captures c ?_⟩,
      ⟨fun b hb => h.bodies b ?_, fun c hc => h.captures c ?_⟩⟩
    all_goals simp [Code.bodies, Code.captures, *]
  · rintro ⟨ho, hi⟩
    constructor
    · intro b hb
      rcases List.mem_append.mp hb with hb | hb
      · exact ho.bodies b hb
      · exact hi.bodies b hb
    · intro c hc
      rcases List.mem_append.mp hc with hc | hc
      · exact ho.captures c hc
      · exact hi.captures c hc

@[simp] theorem within_primitive (p : Primitive) : (primitive p).Within allowed base :=
  ⟨by simp [Code.bodies], by simp [Code.captures]⟩

@[simp] theorem within_operands : operands.Within allowed base :=
  ⟨by simp [Code.bodies], by simp [Code.captures]⟩

end Code

/-! ### Procedures -/

/-- How a procedure can be made in a store: from a primitive, as a closure over the present stack,
or from two procedures in the table. Its parts are procedures that are allowed. -/
inductive Procedure.MadeIn (allowed : ProcId → Prop) (s : Store) : Procedure → Prop
  | primitive (p : Primitive) : MadeIn allowed s (.ofPrimitive p)
  | closure (evaluatesOperands : Bool) (params : Params) {body : Value} :
      body.Within allowed → MadeIn allowed s (.closure evaluatesOperands params body s.stack)
  | composition {outer inner : ProcId} : allowed outer → allowed inner →
      MadeIn allowed s ((s.procedures.get outer).compose (s.procedures.get inner))

end RationalLisp
