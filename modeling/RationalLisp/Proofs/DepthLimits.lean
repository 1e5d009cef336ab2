import RationalLisp.Proofs.Concatenation
import RationalLisp.Proofs.Growth
import RationalLisp.Proofs.Showing

/-!
# What a limit on the nesting decides

Reading and evaluation may be nested only so deep. A higher limit changes nothing about a run that
stays below the lower one; a run that is cut off by the lower limit has printed the beginning of
what is printed under the higher one.

## Implementation notes

No part of the evaluator looks at the depth or catches a failure. So a computation and the same
computation with more room go together step by step until the first of them is cut off, and from
there on the other one only adds to what has been printed.
-/

namespace RationalLisp

open Simulation

/-! ### Reading -/

namespace Program

/-- The first program is the second one, or the second one was cut off while it was read. -/
inductive Prolongs : Program → Program → Prop
  | refl (p : Program) : Prolongs p p
  | cut (xs ys : List Value) (fault : Option ReadFailure) :
      Prolongs ⟨xs ++ ys, fault⟩ ⟨xs, some .outOfDepth⟩

theorem prolongs_readOnto (terminated : Bool) (room k : Nat) (seen : List Value)
    (tokens : List Token) :
    (readOnto terminated (room + k) seen tokens).Prolongs
      (readOnto terminated room seen tokens) := by
  fun_induction readOnto terminated room seen tokens with
  | case1 seen tokens h =>
    obtain heq | ⟨rest, hcut⟩ := Reader.readFrom_add terminated room k (.expression []) tokens
    · rw [readOnto_of_finished (heq.trans h)]
      exact .refl _
    · rw [h] at hcut
      cases hcut
  | case2 seen tokens failure rest h =>
    obtain heq | ⟨rest', hcut⟩ := Reader.readFrom_add terminated room k (.expression []) tokens
    · rw [readOnto_of_failed (heq.trans h)]
      exact .refl _
    · rw [h] at hcut
      cases hcut
      -- what has been read before the cut is read with more room as well
      have hmore := @readOnto_append terminated (room + k) seen [] tokens
      rw [List.nil_append] at hmore
      rw [hmore]
      exact .cut _ _ _
  | case3 seen tokens v rest h ih =>
    obtain heq | ⟨rest', hcut⟩ := Reader.readFrom_add terminated room k (.expression []) tokens
    · rw [readOnto_of_expression (heq.trans h)]
      exact ih
    · rw [h] at hcut
      cases hcut

theorem prolongs_ofText {room room' : Nat} (h : room ≤ room') (source : Text) :
    (ofText room' source).Prolongs (ofText room source) := by
  obtain ⟨k, rfl⟩ := Nat.exists_eq_add_of_le h
  exact prolongs_readOnto ..

theorem Prolongs.eq_of_faultless {p p' : Program} (h : p'.Prolongs p) (hp : p.fault = none) :
    p' = p := by
  cases h with
  | refl => rfl
  | cut => cases hp

theorem Prolongs.single {p p' : Program} (h : p'.Prolongs p) :
    p'.single = p.single ∨ p.single = .error .outOfDepth := by
  cases h with
  | refl => exact .inl rfl
  | cut => exact .inr rfl

end Program

/-! ### Computations -/

/-- The run was cut off by the limit. -/
def Result.CutOff {α : Type} (r : Result α) : Prop := ∃ t, r = .error .outOfDepth t

/-- The first ending is the second one, or the second one is that of a run that was cut off when it
had printed the beginning of what the first one leaves printed. -/
inductive Result.Prolongs {α : Type} : Result α → Result α → Prop
  | refl (r : Result α) : Prolongs r r
  | cut {r : Result α} {t : Store} : t.output.text <+: (Result.store r).output.text →
      Prolongs r (.error .outOfDepth t)

namespace Run

variable {α β : Type} {m m' : Run α} {k k' : α → Run β}

/-- What has been printed stays printed. -/
def Prints (m : Run α) : Prop := ∀ s, s.output.text <+: (Result.store (m s)).output.text

theorem prints_of_simulates {ok : Unit → α → Prop} {n : Traced α}
    (h : Simulates (fun _ s t => s = t) (fun s m => s.Grows m.store) ok () m n) : Prints m :=
  fun s => (grows_of_simulates h s).output

/-- The first computation does what the second one does, and goes on where that one is cut off. -/
structure Prolongs (m' m : Run α) : Prop where
  endings : ∀ s, Result.Prolongs (m' s) (m s)
  prints : Prints m'

theorem Prolongs.eq_of_not_cutOff (h : Prolongs m' m) {s : Store} (hs : ¬ Result.CutOff (m s)) :
    m' s = m s := by
  have hending := h.endings s
  generalize m s = r at hending hs
  cases hending with
  | refl => rfl
  | cut => exact absurd ⟨_, rfl⟩ hs

theorem Prints.prolongs (h : Prints m) : Prolongs m m := ⟨fun _ => .refl _, h⟩

theorem prolongs_of_simulates {ok : Unit → α → Prop} {n : Traced α}
    (h : Simulates (fun _ s t => s = t) (fun s m => s.Grows m.store) ok () m n) : Prolongs m m :=
  (prints_of_simulates h).prolongs

theorem prolongs_pure (a : α) : Prolongs (pure a) (pure a) :=
  Prints.prolongs fun _ => List.prefix_rfl

theorem prolongs_throw (failure : Failure) : Prolongs (throw failure : Run α) (throw failure) :=
  Prints.prolongs fun _ => List.prefix_rfl

theorem Prints.prolongs_outOfDepth (h : Prints m) : Prolongs m (throw .outOfDepth) :=
  ⟨fun s => .cut (h s), h⟩

/-- What the first part of a computation has printed is there at the end. -/
theorem prints_bind_of (hk : ∀ a, Prints (k a)) (s : Store) :
    (Result.store (m s)).output.text <+: (Result.store ((m >>= k) s)).output.text := by
  cases hm : m s with
  | ok a t =>
    rw [bind_of_ok hm]
    exact hk a t
  | error failure t =>
    rw [bind_of_error hm]
    exact List.prefix_rfl

theorem prolongs_bind (hm : Prolongs m' m) (hk : ∀ a, Prolongs (k' a) (k a)) :
    Prolongs (m' >>= k') (m >>= k) := by
  have hlater := prints_bind_of (m := m') fun a => (hk a).prints
  refine ⟨fun s => ?_, fun s => (hm.prints s).trans (hlater s)⟩
  have hending := hm.endings s
  generalize hr : m s = r at hending
  generalize hr' : m' s = r' at hending
  cases hending with
  | refl =>
    cases r with
    | ok a t =>
      rw [bind_of_ok hr, bind_of_ok hr']
      exact (hk a).endings t
    | error failure t =>
      rw [bind_of_error hr, bind_of_error hr']
      exact .refl _
  | cut hprinted =>
    -- the rest of the longer computation only adds to what has been printed
    rw [bind_of_error hr]
    rw [← hr'] at hprinted
    exact .cut (hprinted.trans (hlater s))

theorem prolongs_display {room room' : Nat} (h : room ≤ room') (v : Value) :
    Prolongs (display room' v) (display room v) where
  prints := prints_of_simulates (growth.acts_display room' v)
  endings s := by
    have hprinted := prints_of_simulates (growth.acts_display room' v) s
    rw [display_eq] at hprinted
    rw [display_eq, display_eq]
    obtain hcut | hsame := v.write_mono s.procedures h
    · rw [hcut]
      exact .cut hprinted
    · rw [hsame]
      exact .refl _

/-- Failing with an error that shows a value. -/
theorem prolongs_failShowing {room room' : Nat} (h : room ≤ room') (v : Value) (e : Text → Error) :
    Prolongs (display room' v >>= fun shown => fail (e shown) : Run α)
      (display room v >>= fun shown => fail (e shown)) :=
  prolongs_bind (prolongs_display h v) fun _ => prolongs_throw _

theorem prolongs_withScope (hm : Prolongs m' m) (frame : Frame) (c : Stack) :
    Prolongs (withScope frame c m') (withScope frame c m) := by
  constructor
  · intro s
    rw [Simulation.withScope_eq, Simulation.withScope_eq]
    have hending := hm.endings (s.enter frame c)
    generalize m (s.enter frame c) = r at hending
    generalize m' (s.enter frame c) = r' at hending
    cases hending with
    | refl => exact .refl _
    | cut hprinted =>
      apply Result.Prolongs.cut
      rw [Result.store_mapStore, Store.output_leave, Store.output_leave]
      exact hprinted
  · intro s
    rw [Simulation.withScope_eq, Result.store_mapStore, Store.output_leave]
    exact hm.prints (s.enter frame c)

/-! ### Programs -/

variable {eval eval' : Value → Run Value}

theorem prolongs_sequence (heval : ∀ e, Prolongs (eval' e) (eval e)) (last : Value)
    (exprs : List Value) : Prolongs (sequence eval' last exprs) (sequence eval last exprs) := by
  induction exprs generalizing last with
  | nil => exact prolongs_pure last
  | cons e rest ih => exact prolongs_bind (heval e) ih

theorem prolongs_program_self (heval : ∀ e, Prolongs (eval' e) (eval e)) (p : Program) :
    Prolongs (program eval' p) (program eval p) := by
  obtain ⟨exprs, fault⟩ := p
  refine prolongs_bind (prolongs_sequence heval .null exprs) fun v => ?_
  cases fault with
  | none => exact prolongs_pure v
  | some failure => exact prolongs_throw failure.toFailure

/-- The expressions before a cut are run in both programs. -/
theorem prolongs_program (heval : ∀ e, Prolongs (eval' e) (eval e)) {p p' : Program}
    (hp : p'.Prolongs p) : Prolongs (program eval' p') (program eval p) := by
  cases hp with
  | refl => exact prolongs_program_self heval p
  | cut xs ys fault =>
    have hcut : program eval ⟨xs, some .outOfDepth⟩ =
        program eval ⟨xs, none⟩ >>= fun _ => throw .outOfDepth := by
      simp only [program, bind_assoc, pure_bind]
      rfl
    rw [program_append, hcut]
    refine prolongs_bind (prolongs_program_self heval ⟨xs, none⟩) fun v => ?_
    have hrest := prolongs_program_self heval ⟨ys, fault⟩
    exact (prolongs_bind hrest fun w => prolongs_pure _).prints.prolongs_outOfDepth

end Run

/-- Evaluation one level further in goes on where the other one is cut off. -/
structure Inner.Prolongs (inner' inner : Inner) : Prop where
  room : inner.room ≤ inner'.room
  eval : ∀ e, Run.Prolongs (inner'.eval e) (inner.eval e)

section Walk

open Run

variable {inner inner' : Inner}

theorem Run.prolongs_ofExcept {α : Type} (x : Except Failure α) :
    Prolongs (ofExcept x) (ofExcept x) :=
  prolongs_of_simulates (growth.simulates_ofExcept x)

theorem Run.prolongs_source (h : inner'.Prolongs inner) (host : Host) (p : Path) :
    Prolongs (source host inner' p) (source host inner p) :=
  prolongs_bind (prolongs_ofExcept _) fun text =>
    prolongs_program h.eval (Program.prolongs_ofText h.room text)

theorem Run.prolongs_load (h : inner'.Prolongs inner) (host : Host) (path : Text) :
    Prolongs (load host inner' path) (load host inner path) := by
  refine prolongs_bind (prolongs_ofExcept _) fun p => ?_
  refine prolongs_bind (prolongs_of_simulates (growth.acts_log _ _ _)) fun _ => ?_
  exact prolongs_source h host p

/-! ### Builtins -/

section Builtins

variable {room room' : Nat} {b : Builtin} {args : List Value}

/-- A builtin that shows nothing. -/
theorem Builtin.prolongs_of_eq (h : ∀ room, b.run room args = b.run 0 args) :
    Prolongs (b.run room' args) (b.run room args) := by
  rw [h room', h room]
  exact prolongs_of_simulates (growth.acts_builtin b 0 fun _ _ _ _ => trivial)

theorem Builtin.prolongs_numbers (h : room ≤ room') (b : Builtin) (args : List Value) :
    Prolongs (b.numbers room' args) (b.numbers room args) := by
  induction args with
  | nil => exact prolongs_pure []
  | cons v rest ih =>
    cases v with
    | num q => exact prolongs_bind ih fun qs => prolongs_pure (q :: qs)
    | _ => exact prolongs_failShowing h _ _

theorem Builtin.prolongs_onTwo (h : room ≤ room') (b : Builtin) {f : Rat → Rat → Run Value}
    (hf : ∀ x y, Prolongs (f x y) (f x y)) (args : List Value) :
    Prolongs (b.onTwo room' f args) (b.onTwo room f args) := by
  refine prolongs_bind (prolongs_numbers h b args) fun qs => ?_
  split
  · exact hf _ _
  · exact prolongs_throw _

theorem Builtin.prolongs_onOne (h : room ≤ room') (b : Builtin) {f : Rat → Run Value}
    (hf : ∀ x, Prolongs (f x) (f x)) (args : List Value) :
    Prolongs (b.onOne room' f args) (b.onOne room f args) := by
  refine prolongs_bind (prolongs_numbers h b args) fun qs => ?_
  split
  · exact hf _
  · exact prolongs_throw _

theorem Builtin.prolongs_number (x : Except ArithmeticFault Rat) :
    Prolongs (number x) (number x) :=
  prolongs_of_simulates (growth.acts_number x)

/-- What a builtin shows may need more room than there is. -/
theorem Builtin.prolongs_run (h : room ≤ room') (b : Builtin) (args : List Value) :
    Prolongs (b.run room' args) (b.run room args) := by
  cases b with
  | compare _ => exact prolongs_onTwo h _ (fun _ _ => prolongs_pure _) args
  | arith _ | log => exact prolongs_onTwo h _ (fun _ _ => prolongs_number _) args
  | elementary _ => exact prolongs_onOne h _ (fun _ => prolongs_number _) args
  | numerator | denominator => exact prolongs_onOne h _ (fun _ => prolongs_pure _) args
  | toStr | toAtom =>
    rcases args with _ | ⟨v, _ | ⟨_, _⟩⟩
    case cons.nil => exact prolongs_bind (prolongs_display h v) fun _ => prolongs_pure _
    all_goals exact prolongs_of_eq fun _ => rfl
  | car | cdr =>
    simp only [run]
    split
    · exact prolongs_pure _
    · exact prolongs_failShowing h _ _
    · exact prolongs_throw _
  | print =>
    rcases args with _ | ⟨v, _ | ⟨_, _⟩⟩
    case cons.nil =>
      simp only [run]
      split
      · exact prolongs_bind (prolongs_of_simulates (growth.acts_print _)) fun _ => prolongs_pure _
      · exact prolongs_failShowing h _ _
    all_goals exact prolongs_of_eq fun _ => rfl
  | _ => exact prolongs_of_eq fun _ => rfl

end Builtins

/-! ### Forms -/

/-- A form that does the same whatever evaluation further in does. -/
theorem Form.prolongs_of_eq {f : Form} (host : Host) {args : List Value}
    (h : ∀ inner, f.run host inner args = f.run host (Run.inner host 0) args) :
    Prolongs (f.run host inner' args) (f.run host inner args) := by
  rw [h inner', h inner]
  exact prolongs_of_simulates
    (growth.simulates_form host 0 (growth.simulates_eval host 0) f fun _ _ _ _ => trivial)

theorem Form.prolongs_choose (h : inner'.Prolongs inner) (host : Host) (args : List Value) :
    Prolongs (choose.run host inner' args) (choose.run host inner args) := by
  rcases args with _ | ⟨condition, _ | ⟨yes, _ | ⟨no, _ | ⟨_, _⟩⟩⟩⟩
  case cons.cons.cons.nil =>
    refine prolongs_bind (h.eval condition) fun v => ?_
    split
    · exact h.eval no
    · exact h.eval yes
  all_goals exact prolongs_of_eq host fun _ => rfl

theorem Form.prolongs_string (f : Form) (v : Value) : Prolongs (f.string v) (f.string v) :=
  prolongs_of_simulates (growth.acts_string f v)

theorem Form.prolongs_read (h : inner'.Prolongs inner) (host : Host) (args : List Value) :
    Prolongs (read.run host inner' args) (read.run host inner args) := by
  rcases args with _ | ⟨source, _ | ⟨_, _⟩⟩
  case cons.nil =>
    refine prolongs_bind (prolongs_string _ source) fun t => ?_
    have hprints := (prolongs_ofExcept
      ((Value.ofSource inner'.room t).mapError ReadFailure.toFailure)).prints
    obtain heq | hcut := (Program.prolongs_ofText h.room t).single
    · rw [Value.ofSource, Value.ofSource, heq]
      exact prolongs_ofExcept _
    · rw [show Value.ofSource inner.room t = .error .outOfDepth from hcut]
      exact hprints.prolongs_outOfDepth
  all_goals exact prolongs_of_eq host fun _ => rfl

theorem Form.prolongs_run (h : inner'.Prolongs inner) (host : Host) (f : Form)
    (args : List Value) : Prolongs (f.run host inner' args) (f.run host inner args) := by
  cases f with
  | choose => exact prolongs_choose h host args
  | evaluate =>
    rcases args with _ | ⟨e, _ | ⟨_, _⟩⟩
    case cons.nil => exact h.eval e
    all_goals exact prolongs_of_eq host fun _ => rfl
  | load =>
    rcases args with _ | ⟨path, _ | ⟨_, _⟩⟩
    case cons.nil =>
      exact prolongs_bind (prolongs_string _ path) fun t => prolongs_load h host t
    all_goals exact prolongs_of_eq host fun _ => rfl
  | read => exact prolongs_read h host args
  | _ => exact prolongs_of_eq host fun _ => rfl

/-! ### Calls and evaluation -/

theorem Run.prolongs_check (arity : Arity) (name : Text) (count : Nat) :
    Prolongs (arity.check name count) (arity.check name count) :=
  prolongs_of_simulates (growth.acts_check arity name count)

theorem Code.prolongs_run (h : inner'.Prolongs inner) (host : Host) (c : Code)
    (args : List Value) : Prolongs (c.run host inner' args) (c.run host inner args) := by
  induction c generalizing args with
  | primitive p =>
    cases p with
    | builtin b => exact b.prolongs_run h.room args
    | form f => exact f.prolongs_run h host args
  | closure params body captured => exact prolongs_withScope (h.eval body) _ captured
  | composition name arity outer inner ihOuter ihInner =>
    refine prolongs_bind (ihInner args) fun v => ?_
    exact prolongs_bind (prolongs_check arity name 1) fun _ => ihOuter [v]
  | operands => exact prolongs_pure _

theorem Run.prolongs_evalAll (h : inner'.Prolongs inner) (operands : List Value) :
    Prolongs (evalAll inner'.eval operands) (evalAll inner.eval operands) := by
  induction operands with
  | nil => exact prolongs_pure []
  | cons e rest ih =>
    exact prolongs_bind (h.eval e) fun v => prolongs_bind ih fun vs => prolongs_pure (v :: vs)

theorem Run.prolongs_call (h : inner'.Prolongs inner) (host : Host) (id : ProcId)
    (operands : List Value) :
    Prolongs (call host inner' id operands) (call host inner id operands) := by
  refine prolongs_bind (prolongs_of_simulates (growth.acts_procedure trivial)) fun p => ?_
  refine prolongs_bind (prolongs_check _ _ _) fun _ => ?_
  have hcode := p.code.prolongs_run h host
  cases p.evaluatesOperands with
  | true => exact prolongs_bind (prolongs_evalAll h operands) hcode
  | false => exact prolongs_bind (prolongs_pure operands) hcode

theorem Run.prolongs_apply (h : inner'.Prolongs inner) (host : Host) (f : Value)
    (operands : List Value) :
    Prolongs (apply host inner' f operands) (apply host inner f operands) := by
  cases f with
  | proc id => exact prolongs_call h host id operands
  | _ => exact prolongs_failShowing h.room _ _

theorem Run.prolongs_evalStep (h : inner'.Prolongs inner) (host : Host) (e : Value) :
    Prolongs (evalStep host inner' e) (evalStep host inner e) := by
  cases e with
  | atom name => exact prolongs_of_simulates (growth.acts_lookup name)
  | cell head tail =>
    refine prolongs_bind (h.eval head) fun f => ?_
    cases f with
    | proc id =>
      cases tail.toList? with
      | some operands => exact prolongs_call h host id operands
      | none => exact prolongs_failShowing h.room head _
    | _ => exact prolongs_failShowing h.room _ _
  | _ => exact prolongs_pure _

/-- Evaluation with more room goes on where evaluation with less room is cut off. The induction is
on the lower limit. -/
theorem Run.prolongs_eval (host : Host) {depth depth' : Nat} (h : depth ≤ depth') (e : Value) :
    Prolongs (eval host depth' e) (eval host depth e) := by
  induction depth generalizing depth' e with
  | zero =>
    have heval := growth.simulates_eval host depth' () e fun _ _ => trivial
    exact (prints_of_simulates heval).prolongs_outOfDepth
  | succ depth ih =>
    obtain ⟨depth', rfl⟩ := Nat.exists_eq_succ_of_ne_zero (Nat.ne_zero_of_lt h)
    have hle := Nat.le_of_succ_le_succ h
    exact prolongs_evalStep ⟨hle, ih hle⟩ host e

theorem Run.prolongs_inner (host : Host) {depth depth' : Nat} (h : depth ≤ depth') :
    (Run.inner host depth').Prolongs (Run.inner host depth) := ⟨h, prolongs_eval host h⟩

theorem Run.prolongs_evalText (host : Host) {depth depth' : Nat} (h : depth ≤ depth')
    (source : Text) : Prolongs (evalText host depth' source) (evalText host depth source) :=
  prolongs_program (prolongs_eval host h) (Program.prolongs_ofText h source)

end Walk

/-! ### Runs -/

/-- How a run from a store compares with the same run with more room. If it was not cut off, the run
with more room ends in the same way, with the same store. If it was cut off, what it had printed is
the beginning of what is printed with more room. -/
structure OnlyCutOff {α : Type} (s : Store) (r r' : Result α) : Prop where
  uncut : ¬ Result.CutOff r → r' = r
  cut : ∀ t, r = .error .outOfDepth t → ∃ printed more : Text,
    t.output.text = s.output.text ++ printed ∧
    (Result.store r').output.text = s.output.text ++ printed ++ more

theorem Run.Prolongs.onlyCutOff {α : Type} {m m' : Run α} (h : Prolongs m' m) (hm : Prints m)
    (s : Store) : OnlyCutOff s (m s) (m' s) := by
  refine ⟨h.eq_of_not_cutOff, fun t hcut => ?_⟩
  have hprinted : s.output.text <+: t.output.text := by
    have hprints := hm s
    rwa [hcut] at hprints
  have hmore : t.output.text <+: (Result.store (m' s)).output.text := by
    have hending := h.endings s
    rw [hcut] at hending
    generalize m' s = r at hending
    cases hending with
    | refl => exact List.prefix_rfl
    | cut hmore => exact hmore
  obtain ⟨printed, hprinted⟩ := hprinted
  obtain ⟨more, hmore⟩ := hmore
  exact ⟨printed, more, hprinted.symm, by rw [hprinted, hmore]⟩

/-- A limit on the nesting decides only whether a run is cut off. This holds for every text,
expression, source file, import and application, from every store. -/
theorem limit_only_cuts_off (host : Host) {depth depth' : Nat} (h : depth ≤ depth') (s : Store) :
    (∀ source : Text,
      OnlyCutOff s (Run.evalText host depth source s) (Run.evalText host depth' source s)) ∧
    (∀ e : Value, OnlyCutOff s (Run.eval host depth e s) (Run.eval host depth' e s)) ∧
    (∀ p : Path, OnlyCutOff s (Run.source host (Run.inner host depth) p s)
      (Run.source host (Run.inner host depth') p s)) ∧
    (∀ path : Text, OnlyCutOff s (Run.load host (Run.inner host depth) path s)
      (Run.load host (Run.inner host depth') path s)) ∧
    ∀ (f : Value) (operands : List Value),
      OnlyCutOff s (Run.apply host (Run.inner host depth) f operands s)
        (Run.apply host (Run.inner host depth') f operands s) := by
  have hinner := Run.prolongs_inner host h
  have hself := Run.prolongs_inner host (le_refl depth)
  refine ⟨fun source => ?_, fun e => ?_, fun p => ?_, fun path => ?_, fun f operands => ?_⟩
  · exact (Run.prolongs_evalText host h source).onlyCutOff
      (Run.prolongs_evalText host le_rfl source).prints s
  · exact (hinner.eval e).onlyCutOff (hself.eval e).prints s
  · exact (Run.prolongs_source hinner host p).onlyCutOff (Run.prolongs_source hself host p).prints s
  · exact (Run.prolongs_load hinner host path).onlyCutOff
      (Run.prolongs_load hself host path).prints s
  · exact (Run.prolongs_apply hinner host f operands).onlyCutOff
      (Run.prolongs_apply hself host f operands).prints s

namespace DepthLimits

/-- A store in which a text can be printed. -/
def printing : Store where
  frames := #[[("print", .proc 0), ("s", .ofText "a")]]
  procedures := #[.ofPrimitive (.builtin .print)]
  stack := [0]
  pending := []
  output := .empty
  journal := .empty

end DepthLimits

open DepthLimits

/-- Two levels are enough for a call, but not for a call inside a call. -/
theorem limit_only_cuts_off_nested :
    (∃ t, Run.evalText .bare 2 "(print s) (print (print s))" printing = .error .outOfDepth t ∧
      t.output.text = Text.ofString "a") ∧
    ∃ more, (Result.store
      (Run.evalText .bare 3 "(print s) (print (print s))" printing)).output.text =
        Text.ofString "a" ++ more := by
  have hread : Program.ofText 2 "(print s) (print (print s))" =
      ⟨[.ofList [.atom "print", .atom "s"],
        .ofList [.atom "print", .ofList [.atom "print", .atom "s"]]], none⟩ := by
    decide +kernel
  have hcut : ∃ t, Run.evalText .bare 2 "(print s) (print (print s))" printing =
      .error .outOfDepth t ∧ t.output.text = Text.ofString "a" := by
    rw [Run.evalText, hread]
    exact ⟨_, rfl, by decide⟩
  refine ⟨hcut, ?_⟩
  obtain ⟨t, ht, hprinted⟩ := hcut
  obtain ⟨printed, more, hbefore, hafter⟩ := ((limit_only_cuts_off .bare (by decide : 2 ≤ 3)
    printing).1 "(print s) (print (print s))").cut t ht
  exact ⟨more, by rw [hafter, ← hbefore, hprinted]⟩

end RationalLisp
