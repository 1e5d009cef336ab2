import RationalLisp.Reader
import RationalLisp.Scope.Store

/-! # What forms do

Forms evaluate expressions through the evaluator one level further in, which they are given. -/

namespace RationalLisp

/-- Evaluation one level further in: how it goes, and how deep the source text that is read there
and the values that are shown there may be nested. -/
structure Inner where
  room : Nat
  eval : Value → Run Value

namespace Run

/-- Evaluate expressions in turn; the value is that of the last one. -/
def sequence (eval : Value → Run Value) (last : Value) : List Value → Run Value
  | [] => pure last
  | e :: rest => do
    let v ← eval e
    sequence eval v rest

/-- Run a program: evaluate its expressions in turn, then fail if it is faulty. What comes before
a fault has been run by then. -/
def program (eval : Value → Run Value) (p : Program) : Run Value := do
  let v ← sequence eval .null p.exprs
  match p.fault with
  | none => pure v
  | some failure => throw failure.toFailure

/-- Run the program in a source file. -/
def source (host : Host) (inner : Inner) (p : Path) : Run Value := do
  let text ← ofExcept (host.readSource p)
  program inner.eval (.ofText inner.room text)

/-- Run the program in the source file that a path stands for. -/
def load (host : Host) (inner : Inner) (path : Text) : Run Value := do
  let p ← ofExcept (host.resolve path)
  log "silence.modules.source_loader" .debug (("Importing " : Text) ++ p.toText)
  source host inner p

end Run

/-- The names in a list of atoms. -/
def Value.atomNames? : List Value → Option (List Text)
  | [] => some []
  | .atom name :: rest => (atomNames? rest).map (name :: ·)
  | _ => none

/-- The parameters that a value denotes: a list of names, or the marker of variadic closures,
alone or in a list. -/
def Params.ofValue? (spec : Value) : Option Params :=
  if spec = .atom Params.marker then some .variadic
  else (spec.toList?.bind Value.atomNames?).map Params.ofNames

namespace Form

/-- Fail because the operands do not have the shape that is asked for. -/
def refuse {α : Type} (f : Form) (fault : FormFault) : Run α :=
  Run.fail (.invalidForm f.name fault)

/-- The text of an operand that has to be a string. -/
def string (f : Form) (v : Value) : Run Text :=
  match v.toText? with
  | some t => pure t
  | none => Run.fail (.wrongType f.name .argumentNotAString)

/-- Run a form on its operands. -/
def run (host : Host) (inner : Inner) (f : Form) (args : List Value) : Run Value :=
  match f with
  | choose =>
    match args with
    | [condition, yes, no] => do
      if (← inner.eval condition) = .bool false then inner.eval no else inner.eval yes
    | _ => f.refuse .wrongShape
  | quote =>
    match args with
    | [e] => pure e
    | _ => f.refuse .wrongShape
  | lambda k =>
    match args with
    | [spec, body] =>
      match Params.ofValue? spec with
      | some params => do
        let captured ← Run.snapshot
        Run.make (.closure k.evaluatesOperands params body captured)
      | none => f.refuse .badParameters
    | _ => f.refuse .wrongShape
  | evaluate =>
    match args with
    | [e] => inner.eval e
    | _ => f.refuse .wrongShape
  | load =>
    match args with
    | [path] => do Run.load host inner (← f.string path)
    | _ => f.refuse .wrongShape
  | sequence =>
    match args.getLast? with
    | some v => pure v
    | none => f.refuse .nothingToSequence
  | read =>
    match args with
    | [source] => do
      let t ← f.string source
      Run.ofExcept ((Value.ofSource inner.room t).mapError ReadFailure.toFailure)
    | _ => f.refuse .wrongShape
  | bindInner =>
    match args with
    | [.atom name, v] => do
      Run.bindInnermost name v
      return v
    | _ => f.refuse .notAnAtom
  | bindParent =>
    match args with
    | [.atom name, v] => do
      Run.bindParent name v
      return v
    | _ => f.refuse .notAnAtom

end Form

end RationalLisp
