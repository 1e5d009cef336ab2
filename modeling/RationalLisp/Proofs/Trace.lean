import RationalLisp.Session

/-!
# Runs and their moments

A traced computation does what a computation does and lists the moments it passes through: the
store after every operation, at the start of every evaluation and of every procedure's code, and at
the entrance of every scope. The store of a moment lasts until the next one.

## Implementation notes

Evaluation is written once more here, with every nested evaluation and every scope in the open and
all other operations taken over as they are. Leaving the moments out gives evaluation back; this
is `Traced.eval_snd` in the theory of simulations.
-/

namespace RationalLisp

/-- How a computation ends. -/
abbrev Result (α : Type) := EStateM.Result Failure Store α

namespace Result

variable {α : Type}

/-- The store at the end, whether there is a value or a failure. -/
def store : Result α → Store
  | .ok _ s => s
  | .error _ s => s

/-- The same ending with another store. -/
def mapStore (f : Store → Store) : Result α → Result α
  | .ok a s => .ok a (f s)
  | .error failure s => .error failure (f s)

@[simp] theorem store_ok (a : α) (s : Store) : store (.ok a s) = s := rfl

@[simp] theorem store_error (failure : Failure) (s : Store) :
    store (.error failure s : Result α) = s := rfl

@[simp] theorem store_mapStore (f : Store → Store) (r : Result α) :
    store (mapStore f r) = f (store r) := by
  cases r <;> rfl

end Result

namespace Run

variable {α β : Type} {m : Run α} {k : α → Run β} {s t : Store}

theorem bind_of_ok {a : α} (h : m s = .ok a t) : (m >>= k) s = k a t := by
  change EStateM.bind m k s = k a t
  rw [EStateM.bind, h]

theorem bind_of_error {failure : Failure} (h : m s = .error failure t) :
    (m >>= k) s = .error failure t := by
  change EStateM.bind m k s = .error failure t
  rw [EStateM.bind, h]

theorem exists_of_bind_ok {b : β} (h : (m >>= k) s = .ok b t) :
    ∃ a u, m s = .ok a u ∧ k a u = .ok b t := by
  cases hm : m s with
  | ok a u =>
    rw [bind_of_ok hm] at h
    exact ⟨a, u, rfl, h⟩
  | error failure u =>
    rw [bind_of_error hm] at h
    cases h

theorem orIfMissing_of_missing {other : Run α} (h : m s = .error (.inaccessible .missing) t) :
    m.orIfMissing other s = other t := by
  simp [orIfMissing, h]

theorem orIfMissing_of_ne {other : Run α} (h : ∀ t, m s ≠ .error (.inaccessible .missing) t) :
    m.orIfMissing other s = m s := by
  rw [orIfMissing]
  split
  · rename_i hm
    exact hm.symm
  · rename_i failure t hm
    rw [if_neg (by rintro rfl; exact h t hm)]
    exact hm.symm

theorem lookup_eq (name : Text) (s : Store) :
    lookup name s = match s.lookup? name with
      | some v => .ok v s
      | none => .error (.error (.unboundName name)) s := by
  change (match s.lookup? name with
    | some v => pure v
    | none => fail (.unboundName name) : Run Value) s = _
  cases s.lookup? name <;> rfl

theorem print_of_encodable {text : Text} (h : text.Encodable) (s : Store) :
    print text s = .ok () { s with output := s.output.write text } := by
  rw [print, if_pos h]
  rfl

theorem print_of_not_encodable {text : Text} (h : ¬ text.Encodable) :
    print text = throw .unencodable := if_neg h

theorem display_eq (room : Nat) (v : Value) (s : Store) :
    display room v s = ofExcept (v.write s.procedures room) s := rfl

end Run

/-- What happens at a moment of a run. -/
inductive Event where
  /-- An expression is about to be evaluated. -/
  | evaluating (e : Value)
  /-- The code of a procedure is about to run on its operands. -/
  | running (code : Code) (args : List Value)
  /-- The scope of a closure has been entered. -/
  | entered
  /-- Something has been done, or a scope has been left. -/
  | acted

/-- A moment of a run. -/
structure Moment where
  event : Event
  store : Store

/-- A computation that lists its moments. -/
def Traced (α : Type) : Type := Store → List Moment × Result α

namespace Traced

variable {α β : Type}

instance : Monad Traced where
  pure a := fun s => ([], .ok a s)
  bind m k := fun s =>
    match (m s).2 with
    | .ok a t => ((m s).1 ++ (k a t).1, (k a t).2)
    | .error failure t => ((m s).1, .error failure t)

section Bind

variable {n : Traced α} {k : α → Traced β} {s t : Store}

theorem bind_of_ok {a : α} (h : (n s).2 = .ok a t) :
    (n >>= k) s = ((n s).1 ++ (k a t).1, (k a t).2) := by
  simp only [bind, h]

theorem bind_of_error {failure : Failure} (h : (n s).2 = .error failure t) :
    (n >>= k) s = ((n s).1, .error failure t) := by
  simp only [bind, h]

end Bind

/-- A computation as one without moments. -/
def quiet (m : Run α) : Traced α := fun s => ([], m s)

/-- A computation as a single action. -/
def act (m : Run α) : Traced α := fun s => ([⟨.acted, Result.store (m s)⟩], m s)

/-- Note what is about to happen. -/
def mark (event : Event) (m : Traced α) : Traced α := fun s => (⟨event, s⟩ :: (m s).1, (m s).2)

/-- Run with a new frame on top of a stack, and go back to the present stack afterwards. -/
def withScope (frame : Frame) (base : Stack) (body : Traced α) : Traced α := fun s =>
  let inside := s.enter frame base
  let ending := Result.mapStore Store.leave (body inside).2
  (⟨.entered, inside⟩ :: ((body inside).1 ++ [⟨.acted, Result.store ending⟩]), ending)

/-- Run, and go on with something else if a file or a directory was missing. -/
def orIfMissing (body other : Traced α) : Traced α := fun s =>
  match (body s).2 with
  | .ok a t => ((body s).1, .ok a t)
  | .error failure t =>
    if failure = .inaccessible .missing then ((body s).1 ++ (other t).1, (other t).2)
    else ((body s).1, .error failure t)

section OrIfMissing

variable {n other : Traced α} {s t : Store}

theorem orIfMissing_of_missing (h : (n s).2 = .error (.inaccessible .missing) t) :
    n.orIfMissing other s = ((n s).1 ++ (other t).1, (other t).2) := by
  simp [orIfMissing, h]

theorem orIfMissing_of_ne (h : ∀ t, (n s).2 ≠ .error (.inaccessible .missing) t) :
    n.orIfMissing other s = n s := by
  rw [orIfMissing]
  split
  · rename_i hn
    exact Prod.ext rfl hn.symm
  · rename_i failure t hn
    rw [if_neg (by rintro rfl; exact h t hn)]
    exact Prod.ext rfl hn.symm

end OrIfMissing

/-- Traced evaluation one level further in. -/
structure Inner where
  room : Nat
  eval : Value → Traced Value

/-- Evaluation one level further in, without its moments. -/
def Inner.untraced (inner : Inner) : RationalLisp.Inner :=
  ⟨inner.room, fun e s => (inner.eval e s).2⟩

/-- Evaluate expressions in turn; the value is that of the last one. -/
def sequence (eval : Value → Traced Value) (last : Value) : List Value → Traced Value
  | [] => pure last
  | e :: rest => do
    let v ← eval e
    sequence eval v rest

/-- Run a program. -/
def program (eval : Value → Traced Value) (p : Program) : Traced Value := do
  let v ← sequence eval .null p.exprs
  match p.fault with
  | none => pure v
  | some failure => act (throw failure.toFailure)

/-- Run the program in a source file. -/
def source (host : Host) (inner : Inner) (p : Path) : Traced Value := do
  let text ← act (Run.ofExcept (host.readSource p))
  program inner.eval (.ofText inner.room text)

/-- Run the program in the source file that a path stands for. -/
def load (host : Host) (inner : Inner) (path : Text) : Traced Value := do
  let p ← act (Run.ofExcept (host.resolve path))
  act (Run.log "silence.modules.source_loader" .debug (("Importing " : Text) ++ p.toText))
  source host inner p

/-- Run a form on its operands. Only three forms evaluate expressions. -/
def form (host : Host) (inner : Inner) (f : Form) (args : List Value) : Traced Value :=
  match f, args with
  | .choose, [condition, yes, no] => do
    let v ← inner.eval condition
    if v = .bool false then inner.eval no else inner.eval yes
  | .evaluate, [e] => inner.eval e
  | .load, [path] => do
    let t ← act (Form.load.string path)
    load host inner t
  | f, args => act (f.run host inner.untraced args)

/-- Run a primitive on its operands. -/
def primitive (host : Host) (inner : Inner) : Primitive → List Value → Traced Value
  | .builtin b, args => act (b.run inner.room args)
  | .form f, args => form host inner f args

/-- Run the code of a procedure on its operands. The parts of a composition are code that runs in
its own right. -/
def code (host : Host) (inner : Inner) (c : Code) (args : List Value) : Traced Value :=
  mark (.running c args)
    (match c with
      | .primitive p => primitive host inner p args
      | .closure params body captured => withScope (params.bind args) captured (inner.eval body)
      | .composition name arity f g => do
        let v ← code host inner g args
        act (arity.check name 1)
        code host inner f [v]
      | .operands => pure (.ofList args))

/-- Evaluate expressions from left to right. -/
def evalAll (eval : Value → Traced Value) : List Value → Traced (List Value)
  | [] => pure []
  | e :: rest => do
    let v ← eval e
    let vs ← evalAll eval rest
    pure (v :: vs)

/-- Call a procedure. -/
def call (host : Host) (inner : Inner) (id : ProcId) (operands : List Value) : Traced Value := do
  let p ← act (Run.procedure id)
  act (p.arity.check p.name operands.length)
  let args ← if p.evaluatesOperands then evalAll inner.eval operands else pure operands
  code host inner p.code args

/-- Apply a value to operands. -/
def apply (host : Host) (inner : Inner) (f : Value) (operands : List Value) : Traced Value :=
  match f with
  | .proc id => call host inner id operands
  | v => act (Run.refuseCall inner.room v)

/-- One level of evaluation. -/
def evalStep (host : Host) (inner : Inner) : Value → Traced Value
  | .atom name => act (Run.lookup name)
  | .cell head tail => do
    let f ← inner.eval head
    match f with
    | .proc id =>
      match tail.toList? with
      | some operands => call host inner id operands
      | none => act (do
        let shown ← Run.display inner.room head
        Run.fail (.invalidForm shown .improperOperands))
    | v => act (Run.refuseCall inner.room v)
  | v => pure v

/-- Evaluate an expression in at most `depth` nested levels. -/
def eval (host : Host) : (depth : Nat) → Value → Traced Value
  | 0, _ => act (throw .outOfDepth)
  | depth + 1, e => mark (.evaluating e) (evalStep host ⟨depth, eval host depth⟩ e)

/-- The traced evaluator with `depth` levels left. -/
def inner (host : Host) (depth : Nat) : Inner := ⟨depth, eval host depth⟩

end Traced

namespace Session

/-- What can be asked of a session. The primitives can be had as values, to be put into
expressions that are given to the session later. -/
inductive Step where
  | evaluate (e : Value)
  | text (source : Text)
  | file (path : Text)
  | primitive (p : Primitive)

/-- Do what is asked for. -/
def Step.run (host : Host) : Step → Run Value
  | .evaluate e => Session.evaluate host e
  | .text source => evalText host source
  | .file path => evalFile host path
  | .primitive p => Run.primitive p

/-- Do what is asked for, moment by moment. -/
def Step.traced (host : Host) : Step → Traced Value
  | .evaluate e => Traced.eval host host.depth e
  | .text source => Traced.program (Traced.eval host host.depth) (.ofText host.depth source)
  | .file path => do
    let source ← Traced.act (Run.ofExcept (host.readSource (.ofText path)))
    Traced.program (Traced.eval host host.depth) (.ofText host.depth source)
  | .primitive p => Traced.act (Run.primitive p)

/-- The store after some steps, each of them in its own surroundings. A step that fails is
followed by the next one. -/
def after : List (Host × Step) → Store → Store
  | [], s => s
  | (host, step) :: rest, s => after rest (Result.store (step.run host s))

/-- The moments of some steps. Each step ends with the moment at which it has been done. -/
def moments : List (Host × Step) → Store → List Moment
  | [], _ => []
  | (host, step) :: rest, s =>
    let done := Result.store (step.run host s)
    (step.traced host s).1 ++ ⟨.acted, done⟩ :: moments rest done

/-- Find the prelude and run it, moment by moment. -/
def tracedPrelude (host : Host) : Traced Unit := do
  let root ← Traced.act (Run.ofExcept host.preludeRoot)
  let core := root ++ Path.ofText Prelude.fileName
  let isThere ← Traced.act (Run.ofExcept (host.isPresent core))
  if isThere then
    Traced.act (Run.log "silence.modules.source_loader" .debug
      (("Loading prelude from " : Text) ++ core.toText))
    let _ ← Traced.source host (Traced.inner host host.depth) core
    pure ()
  else Traced.act (throw (.inaccessible .missing))

/-- Run the prelude if it is there, moment by moment. -/
def tracedLoadPrelude (host : Host) : Traced Unit :=
  Traced.orIfMissing (tracedPrelude host)
    (Traced.act (Run.log "silence.interpreter" .warning
      ("Prelude requested but not found; continuing without it" : Text)))

/-- What is left of starting a session when the primitives have been bound. -/
def opening (host : Host) (prelude : Bool) : Run Unit := do
  if Host.greatestRecursionLimit < host.recursionLimit then throw .limitTooLarge
  if prelude then loadPrelude host

theorem start_eq (host : Host) (prelude : Bool) :
    start host prelude = (Run.register >>= fun _ => opening host prelude) := rfl

/-- The rest of starting a session, moment by moment. -/
def tracedOpening (host : Host) (prelude : Bool) : Traced Unit :=
  if Host.greatestRecursionLimit < host.recursionLimit then Traced.act (throw .limitTooLarge)
  else if prelude then tracedLoadPrelude host
  else pure ()

/-- Start a session, moment by moment. -/
def tracedStart (host : Host) (prelude : Bool) : Traced Unit := do
  Traced.act Run.register
  tracedOpening host prelude

/-- The moments of a whole session, from the making of its global frame on. -/
def history (host : Host) (prelude : Bool) (journal : Journal) (steps : List (Host × Step)) :
    List Moment :=
  let started := Result.store (start host prelude (.initial journal))
  (tracedStart host prelude (.initial journal)).1 ++ ⟨.acted, started⟩ :: moments steps started

end Session

end RationalLisp
