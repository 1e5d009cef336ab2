import RationalLisp.Numeric.Elementary
import RationalLisp.Scope.Store
import RationalLisp.Value.List

/-! # What builtins do

Builtins check their operands themselves, since a composition runs them without a call. -/

namespace RationalLisp

/-- The order that a comparison tests. -/
def Comparison.holds : Comparison → Rat → Rat → Bool
  | .gt, a, b => b < a
  | .ge, a, b => b ≤ a
  | .lt, a, b => a < b
  | .le, a, b => a ≤ b

/-- The result of an operation. -/
def Operation.apply : Operation → Rat → Rat → Except ArithmeticFault Rat
  | .add, a, b => .ok (a + b)
  | .sub, a, b => .ok (a - b)
  | .mul, a, b => .ok (a * b)
  | .div, a, b => if b = 0 then .error .zeroDivisor else .ok (a / b)

/-- Whether a value is of a kind. -/
def Kind.holds : Kind → Value → Bool
  | .procedure, .proc _ => true
  | .number, .num _ => true
  | .string, v => v.toText?.isSome
  | .atom, .atom _ => true
  | .null, .null => true
  | .list, v => v.isList
  | .pair, .cell _ _ => true
  | _, _ => false

namespace Builtin

/-- Fail because the operands do not have the shape that is asked for. -/
def refuse {α : Type} (b : Builtin) : Run α := Run.fail (.invalidForm b.name .wrongShape)

/-- The numbers among which every operand has to be. -/
def numbers (b : Builtin) (room : Nat) : List Value → Run (List Rat)
  | [] => pure []
  | .num q :: rest => do return q :: (← numbers b room rest)
  | v :: _ => do
    let shown ← Run.display room v
    Run.fail (.wrongType b.name (.notANumber shown))

/-- The number of an arithmetic result. -/
def number : Except ArithmeticFault Rat → Run Value
  | .ok q => pure (.num q)
  | .error fault => Run.fail (.arithmetic fault)

/-- Fail because an operand is not a pair. -/
def refuseNonPair {α : Type} (b : Builtin) (room : Nat) (v : Value) : Run α := do
  let shown ← Run.display room v
  Run.fail (.wrongType b.name (.notAPair shown))

/-- Run a builtin of two numbers. -/
def onTwo (b : Builtin) (room : Nat) (f : Rat → Rat → Run Value) (args : List Value) :
    Run Value := do
  match ← b.numbers room args with
  | [x, y] => f x y
  | _ => b.refuse

/-- Run a builtin of one number. -/
def onOne (b : Builtin) (room : Nat) (f : Rat → Run Value) (args : List Value) : Run Value := do
  match ← b.numbers room args with
  | [x] => f x
  | _ => b.refuse

/-- Run a builtin on evaluated operands, with room for some levels in what it shows. -/
def run (b : Builtin) (room : Nat) (args : List Value) : Run Value :=
  match b with
  | compose =>
    match args with
    | [.proc outer, .proc inner] => do
      let f ← Run.procedure outer
      let g ← Run.procedure inner
      Run.make (f.compose g)
    | _ => b.refuse
  | equal =>
    match args with
    | [x, y] => pure (.bool (x.same y))
    | _ => b.refuse
  | compare c => b.onTwo room (fun x y => pure (.bool (c.holds x y))) args
  | arith o => b.onTwo room (fun x y => number (o.apply x y)) args
  | log => b.onTwo room (fun base x => number (Logarithm.apply base x)) args
  | elementary f => b.onOne room (fun x => number (f.apply x)) args
  | numerator => b.onOne room (fun x => pure (.num x.num)) args
  | denominator => b.onOne room (fun x => pure (.num x.den)) args
  | toStr =>
    match args with
    | [x] => do return .ofText (← Run.display room x)
    | _ => b.refuse
  | toAtom =>
    match args with
    | [x] => do return .atom (← Run.display room x)
    | _ => b.refuse
  | cons =>
    match args with
    | [head, tail] => pure (.cell head tail)
    | _ => b.refuse
  | car =>
    match args with
    | [.cell head _] => pure head
    | [v] => b.refuseNonPair room v
    | _ => b.refuse
  | cdr =>
    match args with
    | [.cell _ tail] => pure tail
    | [v] => b.refuseNonPair room v
    | _ => b.refuse
  | print =>
    match args with
    | [x] =>
      match x.toText? with
      | some t => do
        Run.print t
        return .null
      | none => do
        let shown ← Run.display room x
        Run.fail (.wrongType b.name (.notAText shown))
    | _ => b.refuse
  | test k =>
    match args with
    | [x] => pure (.bool (k.holds x))
    | _ => b.refuse

end Builtin

end RationalLisp
