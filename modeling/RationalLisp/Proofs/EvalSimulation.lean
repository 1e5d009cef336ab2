import RationalLisp.Proofs.Simulation

/-!
# Evaluation respects simulations

One walk through the evaluator: builtins, programs, forms, calls, and the levels of evaluation. It
serves every relation between stores that the operations on stores respect.
-/

namespace RationalLisp

namespace Simulation

variable {W : Type} [Preorder W] {allowed : W → ProcId → Prop} {base : W → Stack → Prop}
variable {R : W → Store → Store → Prop} {Link : Store → Moment → Prop}
variable {α β : Type} {ok ok' : W → α → Prop} {ok₂ : W → β → Prop} {w w' : W}

/-! ### Builtins -/

theorem acts_numbers (sim : Simulation allowed base R Link) (b : Builtin) (room : Nat)
    (args : List Value) : Acts R Link anything w (b.numbers room args) := by
  induction args generalizing w with
  | nil => exact sim.acts_pure trivial
  | cons v rest ih =>
    unfold Builtin.numbers
    split
    · exact sim.acts_pure trivial
    · rename_i q args heq
      cases heq
      exact sim.acts_bind ih fun _ _ _ _ => sim.acts_pure trivial
    · exact sim.acts_failShowing _ _ _

theorem acts_number (sim : Simulation allowed base R Link) (x : Except ArithmeticFault Rat) :
    Acts R Link (Holding allowed) w (Builtin.number x) := by
  cases x with
  | ok q => exact sim.acts_pure (by simp)
  | error fault => exact sim.acts_fail _

theorem acts_onTwo (sim : Simulation allowed base R Link) (b : Builtin) (room : Nat)
    {f : Rat → Rat → Run Value} (hf : ∀ w x y, Acts R Link (Holding allowed) w (f x y))
    (args : List Value) : Acts R Link (Holding allowed) w (b.onTwo room f args) := by
  apply sim.acts_bind (sim.acts_numbers b room args)
  intro w' _ qs _
  split
  · exact hf w' _ _
  · exact sim.acts_fail _

theorem acts_onOne (sim : Simulation allowed base R Link) (b : Builtin) (room : Nat)
    {f : Rat → Run Value} (hf : ∀ w x, Acts R Link (Holding allowed) w (f x))
    (args : List Value) : Acts R Link (Holding allowed) w (b.onOne room f args) := by
  apply sim.acts_bind (sim.acts_numbers b room args)
  intro w' _ qs _
  split
  · exact hf w' _
  · exact sim.acts_fail _

theorem acts_builtin (sim : Simulation allowed base R Link) (b : Builtin) (room : Nat)
    {args : List Value} (hargs : ∀ v ∈ args, v.Within (allowed w)) :
    Acts R Link (Holding allowed) w (b.run room args) := by
  cases b with
  | compose =>
    simp only [Builtin.run]
    split
    · rename_i outer inner
      refine sim.acts_compose ?_ ?_
      · exact (Value.within_proc _).mp (hargs (.proc outer) (by simp))
      · exact (Value.within_proc _).mp (hargs (.proc inner) (by simp))
    · exact sim.acts_fail _
  | equal =>
    simp only [Builtin.run]
    split
    · exact sim.acts_pure (by simp)
    · exact sim.acts_fail _
  | compare c => exact sim.acts_onTwo _ room (fun _ _ _ => sim.acts_pure (by simp)) args
  | arith o => exact sim.acts_onTwo _ room (fun _ _ _ => sim.acts_number _) args
  | log => exact sim.acts_onTwo _ room (fun _ _ _ => sim.acts_number _) args
  | elementary f => exact sim.acts_onOne _ room (fun _ _ => sim.acts_number _) args
  | numerator => exact sim.acts_onOne _ room (fun _ _ => sim.acts_pure (by simp)) args
  | denominator => exact sim.acts_onOne _ room (fun _ _ => sim.acts_pure (by simp)) args
  | toStr =>
    simp only [Builtin.run]
    split
    · exact sim.acts_bind (sim.acts_display _ _) fun _ _ _ _ => sim.acts_pure (by simp)
    · exact sim.acts_fail _
  | toAtom =>
    simp only [Builtin.run]
    split
    · exact sim.acts_bind (sim.acts_display _ _) fun _ _ _ _ => sim.acts_pure (by simp)
    · exact sim.acts_fail _
  | cons =>
    simp only [Builtin.run]
    split
    · rename_i head tail
      have hcell : (Value.cell head tail).Within (allowed w) :=
        (Value.within_cell _ _).mpr ⟨hargs head (by simp), hargs tail (by simp)⟩
      exact sim.acts_pure hcell
    · exact sim.acts_fail _
  | car =>
    simp only [Builtin.run]
    split
    · rename_i head tail
      have hcell := hargs (.cell head tail) (by simp)
      exact sim.acts_pure ((Value.within_cell _ _).mp hcell).1
    · exact sim.acts_failShowing _ _ _
    · exact sim.acts_fail _
  | cdr =>
    simp only [Builtin.run]
    split
    · rename_i head tail
      have hcell := hargs (.cell head tail) (by simp)
      exact sim.acts_pure ((Value.within_cell _ _).mp hcell).2
    · exact sim.acts_failShowing _ _ _
    · exact sim.acts_fail _
  | print =>
    simp only [Builtin.run]
    split
    · split
      · exact sim.acts_bind (sim.acts_print _) fun _ _ _ _ => sim.acts_pure (by simp)
      · exact sim.acts_failShowing _ _ _
    · exact sim.acts_fail _
  | test k =>
    simp only [Builtin.run]
    split
    · exact sim.acts_pure (by simp)
    · exact sim.acts_fail _

/-! ### Programs -/

variable {eval : Value → Run Value} {traced : Value → Traced Value}

theorem simulates_sequence (sim : Simulation allowed base R Link)
    (heval : SimulatesEval allowed R Link eval traced)
    {exprs : List Value} (hexprs : ∀ e ∈ exprs, ∀ w, e.Within (allowed w)) {last : Value}
    (hlast : last.Within (allowed w)) :
    Simulates R Link (Holding allowed) w (Run.sequence eval last exprs)
      (Traced.sequence traced last exprs) := by
  induction exprs generalizing w last with
  | nil => exact sim.simulates_pure hlast
  | cons e rest ih =>
    apply sim.simulates_bind (heval w e (hexprs e List.mem_cons_self w))
    intro w' _ v hv
    exact ih (fun e' he' => hexprs e' (List.mem_cons_of_mem _ he')) hv

theorem simulates_program (sim : Simulation allowed base R Link)
    (heval : SimulatesEval allowed R Link eval traced)
    {p : Program} (hp : ∀ e ∈ p.exprs, ∀ w, e.Within (allowed w)) :
    Simulates R Link (Holding allowed) w (Run.program eval p) (Traced.program traced p) := by
  obtain ⟨exprs, fault⟩ := p
  apply sim.simulates_bind (sim.simulates_sequence heval hp (by simp))
  intro w' _ v hv
  cases fault with
  | none => exact sim.simulates_pure hv
  | some failure => exact sim.simulates_act (sim.acts_throw _)

theorem simulates_source (sim : Simulation allowed base R Link) (host : Host) (room : Nat)
    (heval : SimulatesEval allowed R Link eval traced) (p : Path) :
    Simulates R Link (Holding allowed) w (Run.source host ⟨room, eval⟩ p)
      (Traced.source host ⟨room, traced⟩ p) := by
  apply sim.simulates_bind (sim.simulates_ofExcept _)
  intro w' _ text _
  exact sim.simulates_program heval fun e he w => Program.within_ofText _ room text e he

theorem simulates_load (sim : Simulation allowed base R Link) (host : Host) (room : Nat)
    (heval : SimulatesEval allowed R Link eval traced) (path : Text) :
    Simulates R Link (Holding allowed) w (Run.load host ⟨room, eval⟩ path)
      (Traced.load host ⟨room, traced⟩ path) := by
  apply sim.simulates_bind (sim.simulates_ofExcept _)
  intro w' _ p _
  apply sim.simulates_bind (sim.simulates_act (sim.acts_log _ _ _))
  intro w'' _ _ _
  exact sim.simulates_source host room heval p

/-! ### Forms -/

theorem acts_string (sim : Simulation allowed base R Link) (f : Form) (v : Value) :
    Acts R Link anything w (f.string v) := by
  unfold Form.string
  split
  · exact sim.acts_pure trivial
  · exact sim.acts_fail _

theorem acts_lambda (sim : Simulation allowed base R Link) (host : Host) (inner : Inner)
    (k : LambdaKind) {args : List Value} (hargs : ∀ v ∈ args, v.Within (allowed w)) :
    Acts R Link (Holding allowed) w ((Form.lambda k).run host inner args) := by
  simp only [Form.run]
  split
  · split
    · rename_i body _ params _
      exact sim.acts_closure _ _ (hargs body (by simp))
    · exact sim.acts_fail _
  · exact sim.acts_fail _

theorem acts_read (sim : Simulation allowed base R Link) (host : Host) (inner : Inner)
    (args : List Value) : Acts R Link (Holding allowed) w (Form.read.run host inner args) := by
  simp only [Form.run]
  split
  · apply sim.acts_bind (sim.acts_string _ _)
    intro w' _ t _
    apply sim.acts_ofExcept
    intro v hv
    cases hread : Value.ofSource inner.room t with
    | ok u =>
      rw [hread] at hv
      cases hv
      exact Value.within_ofSource _ hread
    | error failure =>
      rw [hread] at hv
      cases hv
  · exact sim.acts_fail _

/-- Binding a name gives the value that it is bound to. -/
theorem acts_binding (sim : Simulation allowed base R Link) {m : Run Unit}
    (h : Acts R Link anything w m) {v : Value} (hv : v.Within (allowed w)) :
    Acts R Link (Holding allowed) w (do
      m
      return v) :=
  sim.acts_bind h fun _ hw _ _ => sim.acts_pure (sim.within_mono hw hv)

theorem simulates_choose (sim : Simulation allowed base R Link) (host : Host) (room : Nat)
    (heval : SimulatesEval allowed R Link eval traced) {args : List Value}
    (hargs : ∀ v ∈ args, v.Within (allowed w)) :
    Simulates R Link (Holding allowed) w (Form.choose.run host ⟨room, eval⟩ args)
      (Traced.form host ⟨room, traced⟩ .choose args) := by
  rcases args with _ | ⟨condition, _ | ⟨yes, _ | ⟨no, _ | ⟨_, _⟩⟩⟩⟩
  case cons.cons.cons.nil =>
    apply sim.simulates_bind (heval w condition (hargs condition (by simp)))
    intro w' hw v _
    have hno := sim.within_mono hw (hargs no (by simp))
    have hyes := sim.within_mono hw (hargs yes (by simp))
    split
    · exact heval w' no hno
    · exact heval w' yes hyes
  all_goals exact sim.simulates_act (sim.acts_fail _)

theorem simulates_form (sim : Simulation allowed base R Link) (host : Host) (room : Nat)
    (heval : SimulatesEval allowed R Link eval traced) (f : Form) {args : List Value}
    (hargs : ∀ v ∈ args, v.Within (allowed w)) :
    Simulates R Link (Holding allowed) w (f.run host ⟨room, eval⟩ args)
      (Traced.form host ⟨room, traced⟩ f args) := by
  cases f with
  | choose => exact sim.simulates_choose host room heval hargs
  | quote =>
    refine sim.simulates_act ?_
    simp only [Form.run]
    split
    · rename_i e
      exact sim.acts_pure (hargs e (by simp))
    · exact sim.acts_fail _
  | lambda k => exact sim.simulates_act (sim.acts_lambda host _ k hargs)
  | evaluate =>
    rcases args with _ | ⟨e, _ | ⟨_, _⟩⟩
    case cons.nil => exact heval w e (hargs e (by simp))
    all_goals exact sim.simulates_act (sim.acts_fail _)
  | load =>
    rcases args with _ | ⟨path, _ | ⟨_, _⟩⟩
    case cons.nil =>
      apply sim.simulates_bind (sim.simulates_act (sim.acts_string _ path))
      intro w' _ t _
      exact sim.simulates_load host room heval t
    all_goals exact sim.simulates_act (sim.acts_fail _)
  | sequence =>
    refine sim.simulates_act ?_
    simp only [Form.run]
    split
    · rename_i v hv
      exact sim.acts_pure (hargs v (List.mem_of_getLast? hv))
    · exact sim.acts_fail _
  | read => exact sim.simulates_act (sim.acts_read host _ args)
  | bindInner =>
    refine sim.simulates_act ?_
    simp only [Form.run]
    split
    · rename_i name v
      have hv := hargs v (by simp)
      exact sim.acts_binding (sim.acts_bindInnermost name hv) hv
    · exact sim.acts_fail _
  | bindParent =>
    refine sim.simulates_act ?_
    simp only [Form.run]
    split
    · rename_i name v
      have hv := hargs v (by simp)
      exact sim.acts_binding (sim.acts_bindParent name hv) hv
    · exact sim.acts_fail _

/-! ### Calls -/

theorem simulates_code (sim : Simulation allowed base R Link) (host : Host) (room : Nat)
    (heval : SimulatesEval allowed R Link eval traced) {code : Code}
    (hcode : code.Within (allowed w) (base w)) {args : List Value}
    (hargs : ∀ v ∈ args, v.Within (allowed w)) :
    Simulates R Link (Holding allowed) w (code.run host ⟨room, eval⟩ args)
      (Traced.code host ⟨room, traced⟩ code args) := by
  induction code generalizing w args
  all_goals
    rw [Traced.code]
    apply simulates_mark fun t => sim.link_running _ _ t
  case primitive p =>
    cases p with
    | builtin b => exact sim.simulates_act (sim.acts_builtin b room hargs)
    | form f => exact sim.simulates_form host room heval f hargs
  case closure params body captured =>
    obtain ⟨hbody, hcaptured⟩ := Code.within_closure.mp hcode
    exact sim.simulates_withScope (params.within_bind hargs) (params.nodup_names_bind args)
      hcaptured (heval w body hbody)
  case composition name arity outer inner ihOuter ihInner =>
    obtain ⟨houter, hinner⟩ := Code.within_composition.mp hcode
    apply sim.simulates_bind (ihInner hinner hargs)
    intro w₁ hw₁ v hv
    apply sim.simulates_bind (sim.simulates_act (sim.acts_check arity name 1))
    intro w₂ hw₂ _ _
    have hw := hw₁.trans hw₂
    refine ihOuter (houter.mono (sim.allowed_mono hw) (sim.base_mono hw)) ?_
    simpa using sim.within_mono hw₂ hv
  case operands => exact sim.simulates_pure ((Value.within_ofList args).mpr hargs)

theorem simulates_evalAll (sim : Simulation allowed base R Link)
    (heval : SimulatesEval allowed R Link eval traced) {operands : List Value}
    (hop : ∀ e ∈ operands, e.Within (allowed w)) :
    Simulates R Link (fun w vs => ∀ v ∈ vs, v.Within (allowed w)) w (Run.evalAll eval operands)
      (Traced.evalAll traced operands) := by
  induction operands generalizing w with
  | nil => exact sim.simulates_pure (by simp)
  | cons e rest ih =>
    apply sim.simulates_bind (heval w e (hop e List.mem_cons_self))
    intro w₁ hw₁ v hv
    apply sim.simulates_bind
      (ih fun e' he' => sim.within_mono hw₁ (hop e' (List.mem_cons_of_mem _ he')))
    intro w₂ hw₂ vs hvs
    apply sim.simulates_pure
    intro u hu
    rcases List.mem_cons.mp hu with rfl | hu
    · exact sim.within_mono hw₂ hv
    · exact hvs u hu

theorem simulates_call (sim : Simulation allowed base R Link) (host : Host) (room : Nat)
    (heval : SimulatesEval allowed R Link eval traced) {id : ProcId} (hid : allowed w id)
    {operands : List Value} (hop : ∀ e ∈ operands, e.Within (allowed w)) :
    Simulates R Link (Holding allowed) w (Run.call host ⟨room, eval⟩ id operands)
      (Traced.call host ⟨room, traced⟩ id operands) := by
  apply sim.simulates_bind (sim.simulates_act (sim.acts_procedure hid))
  intro w₁ hw₁ p hp
  apply sim.simulates_bind (sim.simulates_act (sim.acts_check p.arity p.name operands.length))
  intro w₂ hw₂ _ _
  have hop₂ : ∀ e ∈ operands, e.Within (allowed w₂) :=
    fun e he => sim.within_mono (hw₁.trans hw₂) (hop e he)
  have hcode : ∀ w₃, w₂ ≤ w₃ → ∀ args : List Value, (∀ v ∈ args, v.Within (allowed w₃)) →
      Simulates R Link (Holding allowed) w₃ (p.code.run host ⟨room, eval⟩ args)
        (Traced.code host ⟨room, traced⟩ p.code args) := by
    intro w₃ hw₃ args hargs
    have hw := hw₂.trans hw₃
    exact sim.simulates_code host room heval (hp.mono (sim.allowed_mono hw) (sim.base_mono hw))
      hargs
  cases hpolicy : p.evaluatesOperands with
  | true => exact sim.simulates_bind (sim.simulates_evalAll heval hop₂) hcode
  | false => exact sim.simulates_bind (sim.simulates_pure hop₂) hcode

theorem simulates_apply (sim : Simulation allowed base R Link) (host : Host) (room : Nat)
    (heval : SimulatesEval allowed R Link eval traced) {f : Value} (hf : f.Within (allowed w))
    {operands : List Value} (hop : ∀ e ∈ operands, e.Within (allowed w)) :
    Simulates R Link (Holding allowed) w (Run.apply host ⟨room, eval⟩ f operands)
      (Traced.apply host ⟨room, traced⟩ f operands) := by
  cases f with
  | proc id => exact sim.simulates_call host room heval ((Value.within_proc id).mp hf) hop
  | _ => exact sim.simulates_act (sim.acts_refuseCall _ _)

/-! ### Evaluation -/

theorem simulates_evalStep (sim : Simulation allowed base R Link) (host : Host) (room : Nat)
    (heval : SimulatesEval allowed R Link eval traced) {e : Value} (he : e.Within (allowed w)) :
    Simulates R Link (Holding allowed) w (Run.evalStep host ⟨room, eval⟩ e)
      (Traced.evalStep host ⟨room, traced⟩ e) := by
  cases e with
  | atom name => exact sim.simulates_act (sim.acts_lookup name)
  | cell head tail =>
    obtain ⟨hhead, htail⟩ := (Value.within_cell head tail).mp he
    apply sim.simulates_bind (heval w head hhead)
    intro w' hw f hf
    cases f with
    | proc id =>
      cases hoperands : tail.toList? with
      | some operands =>
        have hop : ∀ e ∈ operands, e.Within (allowed w') := fun e he =>
          sim.within_mono hw (htail.of_mem_toList? hoperands he)
        simpa only [hoperands] using
          sim.simulates_call host room heval ((Value.within_proc id).mp hf) hop
      | none =>
        have himproper : Acts R Link (Holding allowed) w' (do
            let shown ← Run.display room head
            Run.fail (.invalidForm shown .improperOperands)) :=
          sim.acts_failShowing room head _
        simpa only [hoperands] using sim.simulates_act himproper
    | _ => exact sim.simulates_act (sim.acts_refuseCall _ _)
  | _ => exact sim.simulates_pure he

/-- Evaluation follows its traced counterpart. The induction is on the nesting that is left. -/
theorem simulates_eval (sim : Simulation allowed base R Link) (host : Host) (depth : Nat) :
    SimulatesEval allowed R Link (Run.eval host depth) (Traced.eval host depth) := by
  induction depth with
  | zero =>
    intro w e _
    exact sim.simulates_act (sim.acts_throw _)
  | succ depth ih =>
    intro w e he
    exact simulates_mark (fun t => sim.link_evaluating e t) (sim.simulates_evalStep host depth ih he)

end Simulation

end RationalLisp
