import RationalLisp.Failure
import RationalLisp.Journal
import RationalLisp.Procedure
import RationalLisp.Scope.Frame
import RationalLisp.Value.Printer

/-! # The store

All that a run can change: the frames and procedures made so far, the stack of frames that names
are looked up in, the stacks put aside by scopes that have been entered, and what has been
printed and logged. Frames are shared between stacks and are known by their place in the store. -/

namespace RationalLisp

/-- A stack of frames, innermost first. -/
abbrev Stack := List FrameId

/-- The state of a run. -/
structure Store where
  frames : Array Frame
  procedures : Procedures
  stack : Stack
  pending : List Stack
  output : Tape
  journal : Journal

/-- A computation that may change the store and may fail; what it changed before it failed stays
changed. -/
abbrev Run := EStateM Failure Store

namespace Store

/-- A frame by its identifier. -/
def frame (s : Store) (id : FrameId) : Frame := s.frames.getD id []

/-- The value of a name in the first frame of a stack that binds it. -/
def lookupIn (s : Store) (name : Text) : Stack → Option Value
  | [] => none
  | id :: rest =>
    match (s.frame id).get? name with
    | some v => some v
    | none => lookupIn s name rest

/-- What a name stands for in a stack depends on the frames only. -/
theorem lookupIn_congr {s t : Store} (h : t.frames = s.frames) (name : Text) (stack : Stack) :
    t.lookupIn name stack = s.lookupIn name stack := by
  induction stack with
  | nil => rfl
  | cons id rest ih => rw [lookupIn, lookupIn, ih, frame, frame, h]

/-- The value of a name. -/
def lookup? (s : Store) (name : Text) : Option Value := s.lookupIn name s.stack

/-- Whether a name has a value. -/
def isBound (s : Store) (name : Text) : Bool := (s.lookup? name).isSome

/-- Bind a name in a frame. -/
def bindAt (s : Store) (id : FrameId) (name : Text) (v : Value) : Store :=
  { s with frames := s.frames.modify id (Frame.set name v) }

/-- Put a new frame on the stack. -/
def push (s : Store) (frame : Frame) : Store :=
  let id := s.frames.size
  { s with stack := id :: s.stack, frames := s.frames.push frame }

/-- Put the stack aside and go on with a new frame on top of another one. -/
def enter (s : Store) (frame : Frame) (base : Stack) : Store :=
  let id := s.frames.size
  { s with
    pending := s.stack :: s.pending
    stack := id :: base
    frames := s.frames.push frame }

/-- Go back to the stack that was put aside last. -/
def leave (s : Store) : Store :=
  match s.pending with
  | [] => s
  | stack :: pending => { s with stack := stack, pending := pending }

/-- Add a procedure to the table. -/
def allocate (s : Store) (p : Procedure) : Store :=
  { s with procedures := s.procedures.push p }

/-- The identifier of a form, the same in every run. -/
def formId (f : Form) : ProcId := Form.all.idxOf f

/-- The state before anything has run: no frames, and the forms as the only procedures. -/
def initial (journal : Journal) : Store where
  frames := #[]
  procedures := (Form.all.map fun f => Procedure.ofPrimitive (.form f)).toArray
  stack := []
  pending := []
  output := .empty
  journal := journal

end Store

namespace Run

/-- Fail with an error of the language. -/
def fail {α : Type} (e : Error) : Run α := throw (.error e)

/-- A result or a failure as a computation that changes nothing. -/
def ofExcept {α : Type} : Except Failure α → Run α
  | .ok a => pure a
  | .error failure => throw failure

/-- Run, and go on with something else if a file or a directory was missing. -/
def orIfMissing {α : Type} (body other : Run α) : Run α := fun s =>
  match body s with
  | .ok a s => .ok a s
  | .error failure s => if failure = .inaccessible .missing then other s else .error failure s

/-! ### Scopes -/

/-- The value of a name. -/
def lookup (name : Text) : Run Value := do
  match (← get).lookup? name with
  | some v => pure v
  | none => fail (.unboundName name)

/-- Put a frame on the stack. -/
def push (frame : Frame) : Run Unit := modify (·.push frame)

/-- Take the innermost frame off the stack. -/
def pop : Run Frame := do
  let s ← get
  match s.stack with
  | [] => fail .popFromEmptyStack
  | id :: rest =>
    set { s with stack := rest }
    pure (s.frame id)

/-- The innermost frame. -/
def innermost : Run FrameId := do
  match (← get).stack.head? with
  | some id => pure id
  | none => fail .emptyStack

/-- The outermost frame. -/
def outermost : Run FrameId := do
  match (← get).stack.getLast? with
  | some id => pure id
  | none => fail .emptyStack

/-- Bind a name in the innermost frame. -/
def bindInnermost (name : Text) (v : Value) : Run Unit := do
  let id ← innermost
  modify (·.bindAt id name v)

/-- Bind a name in the frame below the innermost one. -/
def bindParent (name : Text) (v : Value) : Run Unit := do
  match (← get).stack with
  | [] => fail .emptyStack
  | [_] => fail .noParentScope
  | _ :: id :: _ => modify (·.bindAt id name v)

/-- The stack as it is now. The frames on it stay shared. -/
def snapshot : Run Stack := do return (← get).stack

/-- Run with a new frame on top of a stack, and go back to the present stack afterwards, whether
the run failed or not. -/
def withScope {α : Type} (frame : Frame) (base : Stack) (body : Run α) : Run α := fun s =>
  match body (s.enter frame base) with
  | .ok a s => .ok a s.leave
  | .error failure s => .error failure s.leave

/-! ### Procedures, printing and logging -/

/-- The procedure of an identifier. -/
def procedure (id : ProcId) : Run Procedure := do return (← get).procedures.get id

/-- Make a procedure. -/
def make (p : Procedure) : Run Value := do
  let id := (← get).procedures.size
  modify (·.allocate p)
  return .proc id

/-- The printed form of a value, written with room for some levels of lists in lists. -/
def display (room : Nat) (v : Value) : Run Text := do ofExcept (v.write (← get).procedures room)

/-- Print a text. The output takes UTF-8 only, and nothing of what it refuses. -/
def print (t : Text) : Run Unit :=
  if t.Encodable then modify fun s => { s with output := s.output.write t }
  else throw .unencodable

/-- Log a message. -/
def log (logger : Text) (severity : Severity) (message : Text) : Run Unit :=
  modify fun s => { s with journal := s.journal.record logger severity message }

/-- The value of a primitive: forms are the same procedure every time, builtins a new one. -/
def primitive : Primitive → Run Value
  | .form f => pure (.proc (Store.formId f))
  | .builtin b => make (.ofPrimitive (.builtin b))

/-- Bind primitives in a frame. -/
def bindPrimitives (id : FrameId) : List Primitive → Run Unit
  | [] => pure ()
  | p :: rest => do
    let v ← primitive p
    modify (·.bindAt id p.name v)
    bindPrimitives id rest

/-- Bind all primitives in the outermost frame, which is made if there is none. -/
def register : Run Unit := do
  if (← get).stack = [] then push []
  let id ← outermost
  bindPrimitives id Primitive.all

end Run

end RationalLisp
