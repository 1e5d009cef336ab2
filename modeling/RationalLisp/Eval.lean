import RationalLisp.Eval.Builtin
import RationalLisp.Eval.Form

/-! # Evaluation

An atom stands for the value it is bound to, a cell is a call, and everything else is its own
value. A closure runs in a new frame on top of the stack that it captured.

## Implementation notes

One level of evaluation is written against the evaluator one level further in, so the evaluator
is a recursion on the number of levels that are left. Running out of levels is a failure. -/

namespace RationalLisp

namespace Params

/-- The frame in which a closure runs on its operands. Surplus names or operands are left out. -/
def bind : Params → List Value → Frame
  | .fixed names, args => .ofPairs (names.zip args)
  | .variadic, args => [(restName, .ofList args)]

end Params

/-- Run a primitive on its operands. -/
def Primitive.run (host : Host) (inner : Inner) : Primitive → List Value → Run Value
  | .builtin b => b.run inner.room
  | .form f => f.run host inner

/-- Check the number of operands of a call. -/
def Arity.check (arity : Arity) (name : Text) (count : Nat) : Run Unit :=
  match arity with
  | .variadic => pure ()
  | .exactly n => if n = count then pure () else Run.fail (.arity name n count)

/-- Run the code of a procedure on its operands. The outer part of a composition gets the result
of the inner part as it is. -/
def Code.run (host : Host) (inner : Inner) : Code → List Value → Run Value
  | .primitive p, args => p.run host inner args
  | .closure params body captured, args =>
    Run.withScope (params.bind args) captured (inner.eval body)
  | .composition name arity f g, args => do
    let v ← g.run host inner args
    arity.check name 1
    f.run host inner [v]
  | .operands, args => pure (.ofList args)

namespace Run

/-- Evaluate expressions from left to right. -/
def evalAll (eval : Value → Run Value) : List Value → Run (List Value)
  | [] => pure []
  | e :: rest => do
    let v ← eval e
    return v :: (← evalAll eval rest)

/-- Fail because a value cannot be called. -/
def refuseCall {α : Type} (room : Nat) (v : Value) : Run α := do
  let shown ← display room v
  fail (.notCallable shown)

/-- Call a procedure: check the number of operands, evaluate them if that is its policy, and run
its code. -/
def call (host : Host) (inner : Inner) (id : ProcId) (operands : List Value) : Run Value := do
  let p ← procedure id
  p.arity.check p.name operands.length
  let args ← if p.evaluatesOperands then evalAll inner.eval operands else pure operands
  p.code.run host inner args

/-- Apply a value to operands. -/
def apply (host : Host) (inner : Inner) (f : Value) (operands : List Value) : Run Value :=
  match f with
  | .proc id => call host inner id operands
  | v => refuseCall inner.room v

/-- One level of evaluation. -/
def evalStep (host : Host) (inner : Inner) : Value → Run Value
  | .atom name => lookup name
  | .cell head tail => do
    match ← inner.eval head with
    | .proc id =>
      match tail.toList? with
      | some operands => call host inner id operands
      | none => do
        let shown ← display inner.room head
        fail (.invalidForm shown .improperOperands)
    | v => refuseCall inner.room v
  | v => pure v

/-- Evaluate an expression in at most `depth` nested levels. -/
def eval (host : Host) : (depth : Nat) → Value → Run Value
  | 0, _ => throw .outOfDepth
  | depth + 1, e => evalStep host ⟨depth, eval host depth⟩ e

/-- The evaluator with `depth` levels left. -/
def inner (host : Host) (depth : Nat) : Inner := ⟨depth, eval host depth⟩

/-- Evaluate the expressions of a text in turn, each in at most `depth` nested levels. -/
def evalText (host : Host) (depth : Nat) (source : Text) : Run Value :=
  program (eval host depth) (.ofText depth source)

end Run

end RationalLisp
