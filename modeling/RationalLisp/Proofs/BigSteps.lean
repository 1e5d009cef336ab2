import RationalLisp.Proofs.Sequences

/-!
# Evaluation with enough room

What an expression comes to can be said without saying how deep its evaluation may be nested: from
some depth on, all runs end in the same way. The rules here put the ending of an expression together
from the endings of its parts. A run that is not cut off has the ending that the rules give.

## Implementation notes

A rule speaks of a computation for every depth. The parts of an expression are evaluated one level
further in, so the rules shift the depth; since every ending holds from some depth on, nobody has to
count the levels.
-/

namespace RationalLisp

/-- The call of the procedure that a name stands for. -/
def Value.call (name : Text) (operands : List Value) : Value :=
  .cell (.atom name) (.ofList operands)

/-- The name stands for the procedure. -/
def Store.StandsFor (s : Store) (name : Text) (p : Procedure) : Prop :=
  ∃ id, s.lookup? name = some (.proc id) ∧ s.procedures.get id = p

namespace Run

section Ends

variable {α β : Type} {m : Nat → Run α} {k : Nat → α → Run β} {s t : Store}

/-- From some depth on, the computation ends like this. -/
def Ends (m : Nat → Run α) (s : Store) (r : Result α) : Prop :=
  ∃ least, ∀ depth, least ≤ depth → m depth s = r

theorem ends_of_eq {r : Result α} (h : ∀ depth, m depth s = r) : Ends m s r :=
  ⟨0, fun depth _ => h depth⟩

theorem Ends.unique {r r' : Result α} (h : Ends m s r) (h' : Ends m s r') : r = r' := by
  obtain ⟨least, h⟩ := h
  obtain ⟨least', h'⟩ := h'
  rw [← h (least + least') (by omega), h' (least + least') (by omega)]

theorem Ends.succ {r : Result α} (h : Ends (fun depth => m (depth + 1)) s r) : Ends m s r := by
  obtain ⟨least, h⟩ := h
  refine ⟨least + 1, fun depth hdepth => ?_⟩
  obtain ⟨depth, rfl⟩ := Nat.exists_eq_succ_of_ne_zero (Nat.ne_zero_of_lt hdepth)
  exact h depth (by omega)

theorem Ends.shift {r : Result α} (h : Ends m s r) : Ends (fun depth => m (depth + 1)) s r := by
  obtain ⟨least, h⟩ := h
  exact ⟨least, fun depth hdepth => h (depth + 1) (by omega)⟩

theorem Ends.bind {a : α} {r : Result β} (hm : Ends m s (.ok a t))
    (hk : Ends (fun depth => k depth a) t r) : Ends (fun depth => m depth >>= k depth) s r := by
  obtain ⟨least, hm⟩ := hm
  obtain ⟨least', hk⟩ := hk
  refine ⟨least + least', fun depth hdepth => ?_⟩
  exact (bind_of_ok (hm depth (by omega))).trans (hk depth (by omega))

theorem Ends.bind_error {failure : Failure} (hm : Ends m s (.error failure t)) :
    Ends (fun depth => m depth >>= k depth) s (.error failure t) := by
  obtain ⟨least, hm⟩ := hm
  exact ⟨least, fun depth hdepth => bind_of_error (hm depth hdepth)⟩

theorem Ends.withScope {frame : Frame} {c : Stack} {r : Result α}
    (h : Ends m (s.enter frame c) r) :
    Ends (fun depth => withScope frame c (m depth)) s (Result.mapStore Store.leave r) := by
  obtain ⟨least, h⟩ := h
  refine ⟨least, fun depth hdepth => ?_⟩
  exact (Simulation.withScope_eq frame c (m depth) s).trans
    (congrArg (Result.mapStore Store.leave) (h depth hdepth))

/-- A value is shown if there is enough room and no number in it is too long. -/
theorem ends_display (v : Value) (s : Store) :
    Ends (fun room => display room v) s (match v.show? s.procedures with
      | some text => .ok text s
      | none => .error .tooManyDigits s) := by
  refine ⟨v.levels, fun room hroom => (display_eq room v s).trans ?_⟩
  rw [Value.write_of_levels_le hroom]
  cases v.show? s.procedures <;> rfl

/-- What is shown with some room is shown with more of it. -/
theorem ends_display_of_write {v : Value} {space : Nat} {text : Text}
    (h : v.write s.procedures space = .ok text) :
    Ends (fun room => display room v) s (.ok text s) := by
  have hends := ends_display v s
  rwa [(Value.write_eq_ok_iff.mp h).1] at hends

end Ends

/-- What the evaluation of an expression from a store comes to. Every run that is not cut off ends
like this, and with enough room no run is cut off. -/
structure EvaluatesTo (host : Host) (e : Value) (s : Store) (r : Result Value) : Prop where
  uncut : ∀ depth, ¬ Result.CutOff (eval host depth e s) → eval host depth e s = r
  enough : ∃ least, ∀ depth, least ≤ depth → eval host depth e s = r

section Evaluation

variable {host : Host} {s t u : Store} {e : Value} {r : Result Value}

/-- With enough room, the evaluation of the expression ends like this. -/
abbrev Evaluates (host : Host) (e : Value) : Store → Result Value → Prop :=
  Ends fun depth => eval host depth e

/-- With enough room, the evaluation of the operands ends like this. -/
abbrev EvaluatesAll (host : Host) (operands : List Value) : Store → Result (List Value) → Prop :=
  Ends fun depth => evalAll (eval host depth) operands

/-- A run that is not cut off ends as all runs with more room do. -/
theorem evaluates_of_not_cutOff {depth : Nat} (h : ¬ Result.CutOff (eval host depth e s)) :
    Evaluates host e s (eval host depth e s) :=
  ⟨depth, fun _ hdepth => (prolongs_eval host hdepth e).eq_of_not_cutOff h⟩

theorem Evaluates.evaluatesTo (h : Evaluates host e s r) : EvaluatesTo host e s r :=
  ⟨fun _ hcut => (evaluates_of_not_cutOff hcut).unique h, h⟩

/-! ### Expressions that are not calls -/

theorem evaluates_atom {name : Text} {v : Value} (h : s.lookup? name = some v) :
    Evaluates host (.atom name) s (.ok v s) := by
  refine Ends.succ (ends_of_eq fun depth => ?_)
  rw [eval, evalStep, lookup_eq, h]

theorem evaluates_num (q : Rat) : Evaluates host (.num q) s (.ok (.num q) s) :=
  Ends.succ (ends_of_eq fun _ => rfl)

/-! ### Operands -/

theorem evaluatesAll_nil : EvaluatesAll host [] s (.ok [] s) := ends_of_eq fun _ => rfl

theorem evaluatesAll_cons {rest : List Value} {v : Value} {vs : List Value}
    (he : Evaluates host e s (.ok v t)) (hrest : EvaluatesAll host rest t (.ok vs u)) :
    EvaluatesAll host (e :: rest) s (.ok (v :: vs) u) :=
  he.bind (hrest.bind (ends_of_eq fun _ => rfl))

theorem evaluatesAll_first {rest : List Value} {failure : Failure}
    (he : Evaluates host e s (.error failure t)) :
    EvaluatesAll host (e :: rest) s (.error failure t) := he.bind_error

theorem evaluatesAll_later {rest : List Value} {v : Value} {failure : Failure}
    (he : Evaluates host e s (.ok v t)) (hrest : EvaluatesAll host rest t (.error failure u)) :
    EvaluatesAll host (e :: rest) s (.error failure u) :=
  he.bind hrest.bind_error

theorem length_of_evalAll {eval : Value → Run Value} {operands args : List Value}
    (h : evalAll eval operands s = .ok args t) : args.length = operands.length := by
  induction operands generalizing args s with
  | nil =>
    cases h
    rfl
  | cons e rest ih =>
    obtain ⟨v, u, -, hrest⟩ := exists_of_bind_ok h
    obtain ⟨vs, u', hvs, hargs⟩ := exists_of_bind_ok hrest
    cases hargs
    rw [List.length_cons, List.length_cons, ih hvs]

theorem evaluatesAll_one {v : Value} (he : Evaluates host e s (.ok v t)) :
    EvaluatesAll host [e] s (.ok [v] t) := evaluatesAll_cons he evaluatesAll_nil

/-- Each operand has a value. -/
theorem length_of_evaluatesAll {operands args : List Value}
    (h : EvaluatesAll host operands s (.ok args t)) : args.length = operands.length := by
  obtain ⟨least, h⟩ := h
  exact length_of_evalAll (h least le_rfl)

/-! ### Calls -/

variable {name : Text} {p : Procedure} {operands args : List Value}

/-- A call of a procedure by its name, two levels further in: the operands are evaluated if that is
the policy of the procedure, and its code is run. -/
theorem eval_call (hname : s.StandsFor name p) (hcount : p.arity.accepts operands.length = true)
    (depth : Nat) :
    eval host (depth + 2) (.call name operands) s =
      ((if p.evaluatesOperands then evalAll (eval host (depth + 1)) operands
        else pure operands) >>= p.code.run host (inner host (depth + 1))) s := by
  obtain ⟨id, hlookup, hget⟩ := hname
  have hhead : eval host (depth + 1) (.atom name) s = .ok (.proc id) s := by
    rw [eval, evalStep, lookup_eq, hlookup]
  have hprocedure : procedure id s = .ok p s := by
    rw [← hget]
    rfl
  have hcheck : p.arity.check p.name operands.length s = .ok () s := by
    cases harity : p.arity with
    | variadic => rfl
    | exactly n =>
      rw [harity] at hcount
      rw [Arity.check, if_pos (of_decide_eq_true hcount)]
      rfl
  rw [Value.call, eval, evalStep, bind_of_ok hhead]
  simp only [Value.toList?_ofList]
  unfold call
  rw [bind_of_ok hprocedure, bind_of_ok hcheck]
  cases p.evaluatesOperands <;> rfl

/-- A call ends as its operands and its code do, one after the other. -/
theorem evaluates_of_ends (hname : s.StandsFor name p)
    (hcount : p.arity.accepts operands.length = true)
    (h : Ends (fun depth => (if p.evaluatesOperands then evalAll (eval host depth) operands
      else pure operands) >>= p.code.run host (inner host depth)) s r) :
    Evaluates host (.call name operands) s r := by
  obtain ⟨least, h⟩ := h.shift
  refine Ends.succ (Ends.succ ⟨least, fun depth hdepth => ?_⟩)
  exact (eval_call hname hcount depth).trans (h depth hdepth)

/-- A call of a procedure that evaluates its operands. -/
theorem evaluates_call (hname : s.StandsFor name p)
    (hcount : p.arity.accepts operands.length = true) (hpolicy : p.evaluatesOperands = true)
    (hoperands : EvaluatesAll host operands s (.ok args t))
    (hcode : Ends (fun depth => p.code.run host (inner host depth) args) t r) :
    Evaluates host (.call name operands) s r := by
  refine evaluates_of_ends hname hcount ?_
  rw [hpolicy]
  exact hoperands.bind hcode

/-- A call fails as the first of its operands that fails. -/
theorem evaluates_call_error (hname : s.StandsFor name p)
    (hcount : p.arity.accepts operands.length = true) (hpolicy : p.evaluatesOperands = true)
    {failure : Failure} (hoperands : EvaluatesAll host operands s (.error failure t)) :
    Evaluates host (.call name operands) s (.error failure t) := by
  refine evaluates_of_ends hname hcount ?_
  rw [hpolicy]
  exact hoperands.bind_error

/-- A call of a procedure that takes its operands as they are. -/
theorem evaluates_call_unevaluated (hname : s.StandsFor name p)
    (hcount : p.arity.accepts operands.length = true) (hpolicy : p.evaluatesOperands = false)
    (hcode : Ends (fun depth => p.code.run host (inner host depth) operands) s r) :
    Evaluates host (.call name operands) s r := by
  refine evaluates_of_ends hname hcount ?_
  rw [hpolicy]
  exact hcode

/-! ### Calls of primitives and closures -/

theorem evaluates_builtin {b : Builtin} (hname : s.Provides name (.builtin b))
    (hcount : b.operandCount = operands.length)
    (hoperands : EvaluatesAll host operands s (.ok args t))
    (hrun : Ends (fun room => b.run room args) t r) : Evaluates host (.call name operands) s r :=
  evaluates_call hname (decide_eq_true hcount) rfl hoperands hrun

/-- Two levels are enough to evaluate a quotation. -/
theorem eval_quoted (h : s.Provides "quote" (.form .quote)) (depth : Nat) (v : Value) :
    eval host (depth + 2) v.quoted s = .ok v s :=
  eval_call h rfl depth

theorem evaluates_quoted (h : s.Provides "quote" (.form .quote)) (v : Value) :
    Evaluates host v.quoted s (.ok v s) :=
  Ends.succ (Ends.succ (ends_of_eq fun depth => eval_quoted h depth v))

theorem evaluates_if (hname : s.Provides name (.form .choose)) {condition yes no v : Value}
    (hcondition : Evaluates host condition s (.ok v t))
    (hbranch : Evaluates host (if v = .bool false then no else yes) t r) :
    Evaluates host (.call name [condition, yes, no]) s r := by
  refine evaluates_call_unevaluated hname rfl rfl (hcondition.bind ?_)
  by_cases hv : v = .bool false
  · rw [if_pos hv] at hbranch
    simp only [if_pos hv]
    exact hbranch
  · rw [if_neg hv] at hbranch
    simp only [if_neg hv]
    exact hbranch

theorem evaluates_closure {params : Params} {body : Value} {captured : Stack}
    (hname : s.StandsFor name (.closure true params body captured))
    (hcount : params.arity.accepts operands.length = true)
    (hoperands : EvaluatesAll host operands s (.ok args t))
    (hbody : Evaluates host body (t.enter (params.bind args) captured) r) :
    Evaluates host (.call name operands) s (Result.mapStore Store.leave r) :=
  evaluates_call hname hcount rfl hoperands hbody.withScope

end Evaluation

end Run

end RationalLisp
