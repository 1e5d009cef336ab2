import RationalLisp.Proofs.PreludeDefinitions

/-!
# The list procedures of the prelude

`length` and `append` walk down a chain of cells, one closure call for each cell. What they come to
is said for each way in which a chain can begin: with its end, with a cell, or with something that
is no list at all. By induction this gives their result on every list, and their failure on
everything else. The calls add frames of their own to the store and change nothing that was there
before.

## Implementation notes

The recursive calls are made from inside the scope of the call before them, with other expressions
as operands. `Prelude.Answers` therefore speaks of all stores and of all operands with the given
values.
-/

namespace RationalLisp

open Store

/-! ### Chains -/

namespace Value

/-- What has been seen before makes no difference to how a chain is taken apart. -/
theorem unchainOnto_eq (seen : List Value) (v : Value) :
    unchainOnto seen v = ((unchainOnto [] v).1 ++ seen, (unchainOnto [] v).2) := by
  induction v generalizing seen with
  | cell head tail _ ih =>
    rw [unchainOnto, unchainOnto, ih (head :: seen), ih [head], List.append_assoc]
    rfl
  | _ => rfl

theorem unchain_cell (head tail : Value) :
    (cell head tail).unchain = (head :: tail.unchain.1, tail.unchain.2) := by
  have htail := unchainOnto_eq [head] tail
  simp [unchain, unchainOnto, htail]

theorem toList?_cell (head tail : Value) :
    (cell head tail).toList? = tail.toList?.map (head :: ·) := by
  rw [toList?, toList?, unchain_cell]
  obtain ⟨xs, last⟩ := tail.unchain
  cases last <;> rfl

/-- To show something of all values that are no lists, it is enough to show it of those that are not
even cells, and to go from the tail of a cell to the cell. -/
theorem improper_induction {P : Value → Prop} {table : Procedures} {space : Nat} {shown : Text}
    (hother : ∀ v, v ≠ .null → (∀ head tail, v ≠ .cell head tail) →
      v.write table space = .ok shown → P v)
    (hcell : ∀ head tail, P tail → P (.cell head tail)) (v : Value) (hlist : v.toList? = none)
    (hwrite : v.unchain.2.write table space = .ok shown) : P v := by
  induction v with
  | cell head tail _ ih =>
    rw [toList?_cell, Option.map_eq_none_iff] at hlist
    rw [unchain_cell] at hwrite
    exact hcell head tail (ih hlist hwrite)
  | null => exact nomatch hlist
  | _ => exact hother _ Value.noConfusion (fun _ _ => Value.noConfusion) hwrite

end Value

/-! ### Outcomes -/

/-- An outcome in a store. -/
def Result.of {α : Type} (outcome : Except Failure α) (s : Store) : Result α :=
  match outcome with
  | .ok a => .ok a s
  | .error failure => .error failure s

theorem Result.mapStore_of {α : Type} (outcome : Except Failure α) (f : Store → Store) (s : Store) :
    Result.mapStore f (Result.of outcome s) = Result.of outcome (f s) := by
  cases outcome <;> rfl

namespace Run

/-- The evaluation of the expression comes to this outcome, and all that it does to the store is to
add frames. -/
def Yields (host : Host) (e : Value) (s : Store) (outcome : Except Failure Value) : Prop :=
  ∃ t, s.Adds t ∧ EvaluatesTo host e s (Result.of outcome t)

variable {host : Host} {s : Store} {e e' v : Value} {outcome : Except Failure Value} {name : Text}

theorem Evaluates.yields (h : Evaluates host e s (Result.of outcome s)) : Yields host e s outcome :=
  ⟨s, .refl s, h.evaluatesTo⟩

/-- A choice comes to what the branch of its choice comes to. -/
theorem Yields.choose {condition yes no : Value} {b : Bool}
    (hname : s.Provides name (.form .choose))
    (hcondition : Evaluates host condition s (.ok (.bool b) s))
    (hbranch : Yields host (bif b then yes else no) s outcome) :
    Yields host (.call name [condition, yes, no]) s outcome := by
  obtain ⟨t, hadds, heval⟩ := hbranch
  refine ⟨t, hadds, Evaluates.evaluatesTo ?_⟩
  cases b with
  | true => exact evaluates_if hname hcondition heval.enough
  | false => exact evaluates_if hname hcondition heval.enough

/-- A builtin on the value of its first operand and the outcome of its second one. It fails as that
operand does. -/
theorem Yields.second {α : Type} {found : Except Failure α} {value result : α → Value} {b : Builtin}
    (hname : s.Provides name (.builtin b)) (hcount : b.operandCount = 2)
    (hfirst : Evaluates host e s (.ok v s)) (hsecond : Yields host e' s (found.map value))
    (hrun : ∀ room a t, b.run room [v, value a] t = .ok (result a) t) :
    Yields host (.call name [e, e']) s (found.map result) := by
  obtain ⟨t, hadds, heval⟩ := hsecond
  refine ⟨t, hadds, Evaluates.evaluatesTo ?_⟩
  cases found with
  | ok a =>
    have hoperands : EvaluatesAll host [e, e'] s (.ok [v, value a] t) :=
      evaluatesAll_cons hfirst (evaluatesAll_one heval.enough)
    exact evaluates_builtin hname hcount hoperands (ends_of_eq fun room => hrun room a t)
  | error failure =>
    have hcount' : (Primitive.builtin b).arity.accepts [e, e'].length = true :=
      decide_eq_true hcount
    exact evaluates_call_error hname hcount' rfl
      (evaluatesAll_later hfirst (evaluatesAll_first heval.enough))

end Run

namespace Prelude

open Run

/-- The primitives that the list procedures are written with. -/
def listPrimitives : List Primitive :=
  [.form .quote, .form .choose, .builtin (.test .null), .builtin (.arith .add), .builtin .cons,
    .builtin .car, .builtin .cdr]

/-- The list procedures that call nothing but primitives and themselves. -/
def listProcedures : List Definition := [list, length, append]

/-- The global names on which the list procedures rely. -/
def listNames : List Text :=
  listPrimitives.map Primitive.name ++ listProcedures.map Definition.name

/-- With these values as its operands, the procedure of the definition comes to the outcome,
wherever it is called. -/
def Answers (host : Host) (table : Procedures) (d : Definition) (args : List Value)
    (outcome : Except Failure Value) : Prop :=
  ∀ (s : Store) (operands : List Value), s.procedures = table →
    s.Offers listPrimitives listProcedures → s.StandsFor d.name d.procedure →
    EvaluatesAll host operands s (.ok args s) → Yields host (.call d.name operands) s outcome

/-- The scope of a call of a list procedure, with the frame that the call has made. -/
def InScope (table : Procedures) (frame : Frame) (u : Store) : Prop :=
  ∃ s : Store, s.procedures = table ∧ s.Offers listPrimitives listProcedures ∧
    u = s.enter frame [0]

variable {host : Host} {table : Procedures} {d : Definition} {args operands : List Value}
  {outcome : Except Failure Value} {frame : Frame} {u : Store} {e v : Value}

/-- A procedure answers what its body comes to in the scope of a call. -/
theorem answers_of_body (hcount : (Params.ofNames d.params).arity.accepts args.length = true)
    (hbody : ∀ u, InScope table ((Params.ofNames d.params).bind args) u →
      Yields host d.body u outcome) : Answers host table d args outcome := by
  intro s operands htable hoffers hname hoperands
  obtain ⟨t, hadds, heval⟩ := hbody _ ⟨s, htable, hoffers, rfl⟩
  refine ⟨t.leave, hadds.leave, Evaluates.evaluatesTo ?_⟩
  rw [length_of_evaluatesAll hoperands] at hcount
  rw [← Result.mapStore_of]
  exact evaluates_closure hname hcount hoperands heval.enough

namespace InScope

/-- In the scope of a call, a parameter has the value of its operand. -/
theorem param (h : InScope table frame u) {name : Text} (hname : frame.get? name = some v) :
    Evaluates host (.atom name) u (.ok v u) := by
  obtain ⟨s, -, -, rfl⟩ := h
  exact evaluates_atom (lookup?_enter hname [0])

theorem provides (h : InScope table frame u) (p : Primitive) (hp : p ∈ listPrimitives)
    (hframe : frame.get? p.name = none) : u.Provides p.name p := by
  obtain ⟨s, -, hoffers, rfl⟩ := h
  exact (hoffers.primitive p hp).standsFor_enter hframe

/-- In the scope of a call, a list procedure can be called again. -/
theorem answers (h : InScope table frame u) (hd : d ∈ listProcedures)
    (hframe : frame.get? d.name = none) (hanswers : Answers host table d args outcome)
    (hoperands : EvaluatesAll host operands u (.ok args u)) :
    Yields host (.call d.name operands) u outcome := by
  obtain ⟨s, htable, hoffers, rfl⟩ := h
  exact hanswers _ _ htable (hoffers.enter frame [0])
    ((hoffers.definition d hd).standsFor_enter hframe) hoperands

/-- A call of a list procedure fails as the first of its operands that fails. -/
theorem fails (h : InScope table frame u) (d : Definition) (hd : d ∈ listProcedures)
    (hframe : frame.get? d.name = none)
    (hcount : (Params.ofNames d.params).arity.accepts operands.length = true) {failure : Failure}
    (hoperands : EvaluatesAll host operands u (.error failure u)) :
    Yields host (.call d.name operands) u (.error failure) := by
  obtain ⟨s, -, hoffers, rfl⟩ := h
  exact Evaluates.yields (evaluates_call_error ((hoffers.definition d hd).standsFor_enter hframe)
    hcount rfl hoperands)

/-- The test for the end of a list. -/
theorem null (h : InScope table frame u) (hframe : frame.get? "null?" = none)
    (he : Evaluates host e u (.ok v u)) :
    Evaluates host (.call "null?" [e]) u (.ok (.bool (decide (v = .null))) u) := by
  have hholds : Kind.null.holds v = decide (v = .null) := by
    cases v <;> rfl
  rw [← hholds]
  exact evaluates_builtin (h.provides (.builtin (.test .null)) (by decide) hframe) rfl
    (evaluatesAll_one he) (ends_of_eq fun _ => rfl)

/-- A builtin that takes a cell apart fails on everything else. -/
theorem refuses (h : InScope table frame u) {b : Builtin} (hb : .builtin b ∈ listPrimitives)
    (hframe : frame.get? b.name = none) (hcount : b.operandCount = 1)
    (hrun : ∀ room, b.run room [v] = b.refuseNonPair room v) {space : Nat} {shown : Text}
    (hwrite : v.write table space = .ok shown) (he : Evaluates host e u (.ok v u)) :
    Evaluates host (.call b.name [e]) u
      (.error (.error (.wrongType b.name (.notAPair shown))) u) := by
  have hdisplay : Ends (fun room => display room v) u (.ok shown u) := by
    obtain ⟨s, rfl, -, rfl⟩ := h
    exact ends_display_of_write (s := s.enter frame [0]) hwrite
  refine evaluates_builtin (h.provides (.builtin b) hb hframe) hcount (evaluatesAll_one he) ?_
  simp only [hrun]
  exact hdisplay.bind (ends_of_eq fun _ => rfl)

end InScope

/-! ### The length of a list -/

/-- The number of elements as a value. -/
def count (n : Nat) : Value := .num n

theorem answers_length_null : Answers host table length [.null] (.ok (count 0)) := by
  apply answers_of_body rfl
  intro u hu
  have hxs : Evaluates host (.atom "xs") u (.ok .null u) := hu.param rfl
  apply Yields.choose (hu.provides (.form .choose) (by decide) rfl) (hu.null rfl hxs)
  exact Evaluates.yields (evaluates_num 0)

/-- Before the end of a list, one is added to the length of the rest. -/
theorem yields_length {found : Except Failure Nat} (hu : InScope table [("xs", v)] u)
    (hnull : v ≠ .null)
    (hrest : Yields host (.call "length" [.call "cdr" [.atom "xs"]]) u (found.map count)) :
    Yields host length.body u (found.map fun n => count (n + 1)) := by
  have hxs : Evaluates host (.call "null?" [.atom "xs"]) u (.ok (.bool false) u) := by
    rw [← decide_eq_false hnull]
    exact hu.null rfl (hu.param rfl)
  apply Yields.choose (hu.provides (.form .choose) (by decide) rfl) hxs
  apply Yields.second (hu.provides (.builtin (.arith .add)) (by decide) rfl) rfl (evaluates_num 1)
    hrest
  intro room n t
  have hsum : (1 : Rat) + (n : Rat) = ((n + 1 : Nat) : Rat) := by
    push_cast
    ring
  rw [count, count, ← hsum]
  rfl

theorem answers_length_cell {head tail : Value} {found : Except Failure Nat}
    (htail : Answers host table length [tail] (found.map count)) :
    Answers host table length [.cell head tail] (found.map fun n => count (n + 1)) := by
  apply answers_of_body rfl
  intro u hu
  have hxs : Evaluates host (.atom "xs") u (.ok (.cell head tail) u) := hu.param rfl
  have hcdr : Evaluates host (.call "cdr" [.atom "xs"]) u (.ok tail u) :=
    evaluates_builtin (hu.provides (.builtin .cdr) (by decide) rfl) rfl (evaluatesAll_one hxs)
      (ends_of_eq fun _ => rfl)
  have hrest : Yields host (.call "length" [.call "cdr" [.atom "xs"]]) u (found.map count) :=
    hu.answers (by decide) rfl htail (evaluatesAll_one hcdr)
  exact yields_length hu Value.noConfusion hrest

/-- What is neither a cell nor the end of a list has no rest. -/
theorem answers_length_other {space : Nat} {shown : Text} (hnull : v ≠ .null)
    (hcell : ∀ head tail, v ≠ .cell head tail) (hwrite : v.write table space = .ok shown) :
    Answers host table length [v] (.error (.error (.wrongType "cdr" (.notAPair shown)))) := by
  apply answers_of_body rfl
  intro u hu
  have hxs : Evaluates host (.atom "xs") u (.ok v u) := hu.param rfl
  have hrun : ∀ room, Builtin.cdr.run room [v] = Builtin.cdr.refuseNonPair room v := by
    intro room
    cases v with
    | cell head tail => exact absurd rfl (hcell head tail)
    | _ => rfl
  have hcdr : Evaluates host (.call "cdr" [.atom "xs"]) u
      (.error (.error (.wrongType "cdr" (.notAPair shown))) u) :=
    hu.refuses (by decide) rfl rfl hrun hwrite hxs
  have hrest : Yields host (.call "length" [.call "cdr" [.atom "xs"]]) u
      (Except.map count (.error (.error (.wrongType "cdr" (.notAPair shown))))) :=
    hu.fails length (by decide) rfl rfl (evaluatesAll_first hcdr)
  exact yields_length hu hnull hrest

theorem answers_length (xs : List Value) :
    Answers host table length [.ofList xs] (.ok (count xs.length)) := by
  induction xs with
  | nil => exact answers_length_null
  | cons x xs ih =>
    have htail : Answers host table length [.ofList xs] (Except.map count (.ok xs.length)) := ih
    exact answers_length_cell htail

theorem answers_length_improper {space : Nat} {shown : Text} (v : Value) (hlist : v.toList? = none)
    (hwrite : v.unchain.2.write table space = .ok shown) :
    Answers host table length [v] (.error (.error (.wrongType "cdr" (.notAPair shown)))) := by
  apply Value.improper_induction _ _ v hlist hwrite
  · intro v hnull hcell hwrite
    exact answers_length_other hnull hcell hwrite
  · intro head tail ih
    have htail : Answers host table length [tail]
        (Except.map count (.error (.error (.wrongType "cdr" (.notAPair shown))))) := ih
    exact answers_length_cell htail

/-! ### Lists in front of a tail -/

variable {ys : Value}

theorem answers_append_null : Answers host table append [.null, ys] (.ok ys) := by
  apply answers_of_body rfl
  intro u hu
  have hxs : Evaluates host (.atom "xs") u (.ok .null u) := hu.param rfl
  have hys : Evaluates host (.atom "ys") u (.ok ys u) := hu.param rfl
  apply Yields.choose (hu.provides (.form .choose) (by decide) rfl) (hu.null rfl hxs)
  exact Evaluates.yields hys

theorem answers_append_cell {head tail : Value}
    (htail : Answers host table append [tail, ys] outcome) :
    Answers host table append [.cell head tail, ys] (outcome.map (.cell head)) := by
  apply answers_of_body rfl
  intro u hu
  have hxs : Evaluates host (.atom "xs") u (.ok (.cell head tail) u) := hu.param rfl
  have hys : Evaluates host (.atom "ys") u (.ok ys u) := hu.param rfl
  have hcar : Evaluates host (.call "car" [.atom "xs"]) u (.ok head u) :=
    evaluates_builtin (hu.provides (.builtin .car) (by decide) rfl) rfl (evaluatesAll_one hxs)
      (ends_of_eq fun _ => rfl)
  have hcdr : Evaluates host (.call "cdr" [.atom "xs"]) u (.ok tail u) :=
    evaluates_builtin (hu.provides (.builtin .cdr) (by decide) rfl) rfl (evaluatesAll_one hxs)
      (ends_of_eq fun _ => rfl)
  have hrest : Yields host (.call "append" [.call "cdr" [.atom "xs"], .atom "ys"]) u
      (outcome.map id) := by
    rw [Except.map_id]
    exact hu.answers (by decide) rfl htail (evaluatesAll_cons hcdr (evaluatesAll_one hys))
  apply Yields.choose (hu.provides (.form .choose) (by decide) rfl) (hu.null rfl hxs)
  exact Yields.second (hu.provides (.builtin .cons) (by decide) rfl) rfl hcar hrest
    fun _ _ _ => rfl

theorem answers_append_other {space : Nat} {shown : Text} (hnull : v ≠ .null)
    (hcell : ∀ head tail, v ≠ .cell head tail) (hwrite : v.write table space = .ok shown) :
    Answers host table append [v, ys] (.error (.error (.wrongType "car" (.notAPair shown)))) := by
  apply answers_of_body rfl
  intro u hu
  have hxs : Evaluates host (.atom "xs") u (.ok v u) := hu.param rfl
  have htest : Evaluates host (.call "null?" [.atom "xs"]) u (.ok (.bool false) u) := by
    rw [← decide_eq_false hnull]
    exact hu.null rfl hxs
  have hrun : ∀ room, Builtin.car.run room [v] = Builtin.car.refuseNonPair room v := by
    intro room
    cases v with
    | cell head tail => exact absurd rfl (hcell head tail)
    | _ => rfl
  have hcar : Evaluates host (.call "car" [.atom "xs"]) u
      (.error (.error (.wrongType "car" (.notAPair shown))) u) :=
    hu.refuses (by decide) rfl rfl hrun hwrite hxs
  apply Yields.choose (hu.provides (.form .choose) (by decide) rfl) htest
  exact Evaluates.yields (evaluates_call_error (hu.provides (.builtin .cons) (by decide) rfl)
    rfl rfl (evaluatesAll_first hcar))

theorem answers_append (xs : List Value) (ys : Value) :
    Answers host table append [.ofList xs, ys] (.ok (.chain xs ys)) := by
  induction xs with
  | nil => exact answers_append_null
  | cons x xs ih => exact answers_append_cell ih

theorem answers_append_improper {space : Nat} {shown : Text} (v ys : Value) (hlist : v.toList? = none)
    (hwrite : v.unchain.2.write table space = .ok shown) :
    Answers host table append [v, ys] (.error (.error (.wrongType "car" (.notAPair shown)))) := by
  apply Value.improper_induction _ _ v hlist hwrite
  · intro v hnull hcell hwrite
    exact answers_append_other hnull hcell hwrite
  · intro head tail ih
    exact answers_append_cell ih

end Prelude

/-! ### The list of the operands -/

namespace Run

/-- The expressions are evaluated from left to right, to the last one or to the first that fails. -/
inductive InTurn (eval : Value → Run Value) : List Value → Store → Result (List Value) → Prop
  | nil (s : Store) : InTurn eval [] s (.ok [] s)
  | ok {e v : Value} {rest vs : List Value} {s t u : Store} : eval e s = .ok v t →
      InTurn eval rest t (.ok vs u) → InTurn eval (e :: rest) s (.ok (v :: vs) u)
  | first {e : Value} {rest : List Value} {failure : Failure} {s t : Store} :
      eval e s = .error failure t → InTurn eval (e :: rest) s (.error failure t)
  | later {e v : Value} {rest : List Value} {failure : Failure} {s t u : Store} :
      eval e s = .ok v t → InTurn eval rest t (.error failure u) →
      InTurn eval (e :: rest) s (.error failure u)

theorem inTurn_evalAll (eval : Value → Run Value) (es : List Value) (s : Store) :
    InTurn eval es s (evalAll eval es s) := by
  induction es generalizing s with
  | nil => exact .nil s
  | cons e rest ih =>
    cases he : eval e s with
    | error failure t =>
      have hall : evalAll eval (e :: rest) s = .error failure t := bind_of_error he
      rw [hall]
      exact .first he
    | ok v t =>
      have hrest := ih t
      cases hvs : evalAll eval rest t with
      | error failure u =>
        rw [hvs] at hrest
        have hall : evalAll eval (e :: rest) s = .error failure u :=
          (bind_of_ok he).trans (bind_of_error hvs)
        rw [hall]
        exact .later he hrest
      | ok vs u =>
        rw [hvs] at hrest
        have hall : evalAll eval (e :: rest) s = .ok (v :: vs) u :=
          (bind_of_ok he).trans (bind_of_ok hvs)
        rw [hall]
        exact .ok he hrest

/-- `list` evaluates its operands in turn and answers with the list of their values. -/
theorem eval_list {host : Host} {s : Store}
    (hname : s.StandsFor Prelude.list.name Prelude.list.procedure) (depth : Nat) (es : List Value) :
    (∃ vs t t', InTurn (eval host (depth + 1)) es s (.ok vs t) ∧ t.Adds t' ∧
      eval host (depth + 2) (.call "list" es) s = .ok (.ofList vs) t') ∨
    ∃ failure t, InTurn (eval host (depth + 1)) es s (.error failure t) ∧
      eval host (depth + 2) (.call "list" es) s = .error failure t := by
  have hcall : eval host (depth + 2) (.call "list" es) s =
      (evalAll (eval host (depth + 1)) es >>=
        Prelude.list.procedure.code.run host (inner host (depth + 1))) s :=
    eval_call hname rfl depth
  have hturn := inTurn_evalAll (eval host (depth + 1)) es s
  cases hall : evalAll (eval host (depth + 1)) es s with
  | ok vs t =>
    rw [hall] at hturn
    have hargs : eval host (depth + 1) (.atom "args") (t.enter [("args", .ofList vs)] [0]) =
        .ok (.ofList vs) (t.enter [("args", .ofList vs)] [0]) := by
      rw [eval, evalStep, lookup_eq, lookup?_enter rfl [0]]
    refine .inl ⟨vs, t, _, hturn, Adds.leave (.refl (t.enter [("args", .ofList vs)] [0])), ?_⟩
    rw [hcall, bind_of_ok hall]
    exact (Simulation.withScope_eq _ [0] _ t).trans (congrArg (Result.mapStore leave) hargs)
  | error failure t =>
    rw [hall] at hturn
    refine .inr ⟨failure, t, hturn, ?_⟩
    rw [hcall, bind_of_error hall]

end Run

open Run

/-- The list procedures of the prelude are right on all lists. Let a session have been started with
the prelude, and let the names on which the list procedures rely have the bindings that they had at
the start. Then `length` and `append` come to the length of every list and to the list in front of
every tail, they fail on everything else, and they only add frames. `list` evaluates its operands in
turn, fails as the first of them that fails, and otherwise adds a frame and answers with the list of
their values. -/
theorem prelude_lists_correct (host host' : Host) (journal : Journal) (s₀ s : Store)
    (steps : List (Host × Session.Step)) (hprelude : host.HasPrelude)
    (hstart : Session.start host true (.initial journal) = .ok () s₀)
    (hs : s = Session.after steps s₀)
    (hnames : ∀ name ∈ Prelude.listNames, (s.frame 0).get? name = (s₀.frame 0).get? name) :
    (∀ xs : List Value,
      Yields host' (.call "length" [(Value.ofList xs).quoted]) s (.ok (.num xs.length))) ∧
    (∀ (xs : List Value) (ys : Value),
      Yields host' (.call "append" [(Value.ofList xs).quoted, ys.quoted]) s
        (.ok (.chain xs ys))) ∧
    (∀ (v : Value) (space : Nat) (shown : Text), v.toList? = none →
      v.unchain.2.write s.procedures space = .ok shown →
      Yields host' (.call "length" [v.quoted]) s
        (.error (.error (.wrongType "cdr" (.notAPair shown)))) ∧
      ∀ ys : Value, Yields host' (.call "append" [v.quoted, ys.quoted]) s
        (.error (.error (.wrongType "car" (.notAPair shown))))) ∧
    ∀ (es : List Value) (depth : Nat),
      (∃ vs t t', InTurn (eval host' (depth + 1)) es s (.ok vs t) ∧ t.Adds t' ∧
        eval host' (depth + 2) (.call "list" es) s = .ok (.ofList vs) t') ∨
      ∃ failure t, InTurn (eval host' (depth + 1)) es s (.error failure t) ∧
        eval host' (depth + 2) (.call "list" es) s = .error failure t := by
  subst hs
  obtain ⟨hstack, hoffers⟩ := Session.offers_after hprelude hstart steps
    (by decide) (by decide) hnames
  have hquote := (hoffers.primitive (.form .quote) (by decide)).standsFor hstack
  have hquoted : ∀ v : Value, Evaluates host' v.quoted (Session.after steps s₀)
      (.ok v (Session.after steps s₀)) := evaluates_quoted hquote
  have hlength := (hoffers.definition Prelude.length (by decide)).standsFor hstack
  have happend := (hoffers.definition Prelude.append (by decide)).standsFor hstack
  refine ⟨fun xs => ?_, fun xs ys => ?_, fun v space shown hlist hwrite => ⟨?_, fun ys => ?_⟩,
    fun es depth => ?_⟩
  · exact Prelude.answers_length xs _ _ rfl hoffers hlength (evaluatesAll_one (hquoted _))
  · exact Prelude.answers_append xs ys _ _ rfl hoffers happend
      (evaluatesAll_cons (hquoted _) (evaluatesAll_one (hquoted ys)))
  · exact Prelude.answers_length_improper v hlist hwrite _ _ rfl hoffers hlength
      (evaluatesAll_one (hquoted v))
  · exact Prelude.answers_append_improper v ys hlist hwrite _ _ rfl hoffers happend
      (evaluatesAll_cons (hquoted v) (evaluatesAll_one (hquoted ys)))
  · exact eval_list ((hoffers.definition Prelude.list (by decide)).standsFor hstack) depth es

/-- A global `xs` does not get in the way of the parameter of that name. -/
theorem prelude_lists_correct_shadowed :
    ∃ s₀ s, Session.start Prelude.installed true (.initial .empty) = .ok () s₀ ∧
      s = Session.after
        [(.bare, .evaluate (.call "let!" [.quoted (.atom "xs"), .num 5]))] s₀ ∧
      (s.frame 0).get? "xs" = some (.num 5) ∧
      Yields .bare (.call "length" [(Value.ofList [.null, .atom "a"]).quoted]) s (.ok (.num 2)) ∧
      Yields .bare (.call "append" [(Value.cell .null (.atom "a")).quoted, Value.null.quoted]) s
        (.error (.error (.wrongType "car" (.notAPair "a")))) := by
  obtain ⟨s₀, hstart, hoffers⟩ :=
    Session.start_offers Prelude.hasPrelude_installed (by decide) (by decide) .empty
  have hstack : s₀.stack = [0] := by
    have h := Session.start_stack Prelude.installed true .empty
    rwa [hstart] at h
  have hdefining : Defining s₀ :=
    ⟨hstack, hoffers.primitive (.form .bindInner) (by decide),
      hoffers.primitive (.form (.lambda ⟨false, true⟩)) (by decide),
      hoffers.primitive (.form .quote) (by decide)⟩
  have hlet : Session.Step.run .bare
      (.evaluate (.call "let!" [.quoted (.atom "xs"), .num 5])) s₀ =
        .ok (.num 5) (s₀.bindAt 0 "xs" (.num 5)) := by
    have hdepth : Host.bare.depth = 4997 + 3 := rfl
    rw [Session.Step.run, Session.evaluate, hdepth]
    exact eval_let hdefining rfl hstack
  have hafter : s₀.bindAt 0 "xs" (.num 5) = Session.after
      [(.bare, .evaluate (.call "let!" [.quoted (.atom "xs"), .num 5]))] s₀ := by
    rw [Session.after, hlet]
    rfl
  have hnames : ∀ name ∈ Prelude.listNames,
      ((s₀.bindAt 0 "xs" (.num 5)).frame 0).get? name = (s₀.frame 0).get? name := by
    have hxs : Text.ofString "xs" ∉ Prelude.listNames := by decide
    intro name hname
    apply get?_bindAt_of_ne
    rintro rfl
    exact hxs hname
  obtain ⟨hlength, -, hothers, -⟩ := prelude_lists_correct Prelude.installed .bare .empty s₀ _ _
    Prelude.hasPrelude_installed hstart hafter hnames
  have hwrite : (Value.cell .null (.atom "a")).unchain.2.write
      (s₀.bindAt 0 "xs" (.num 5)).procedures 0 = .ok (Text.ofString "a") := by
    simp [Value.unchain, Value.unchainOnto, Value.write, Value.writeLeaf, Value.text]
  refine ⟨s₀, _, hstart, hafter, get?_bindAt_self hdefining.bind.frames_pos _ _, ?_, ?_⟩
  · exact hlength [.null, .atom "a"]
  · exact (hothers (.cell .null (.atom "a")) 0 "a" rfl hwrite).2 .null

end RationalLisp
