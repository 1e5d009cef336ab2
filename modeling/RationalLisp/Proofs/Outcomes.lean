import RationalLisp.Proofs.Showing
import RationalLisp.Proofs.Trace

/-!
# What primitives come to

A builtin looks at its operands and at the table of procedures, and at nothing else; so do the forms
that neither evaluate anything nor have to do with scopes. What they come to is then settled: they
answer, print, make a procedure or fail, in the same way in all stores that share a table.

A primitive that is given as many operands as it takes fails only for a reason that it states. The
one exception is the composition of what is not a procedure.
-/

namespace RationalLisp

/-- What a primitive comes to. -/
inductive Outcome where
  | answer (v : Value)
  | print (text : Text)
  | make (p : Procedure)
  | fail (failure : Failure)

/-- Do what a primitive comes to. -/
def Outcome.perform : Outcome → Run Value
  | answer v => pure v
  | print text => fun s => .ok .null { s with output := s.output.write text }
  | make p => Run.make p
  | fail failure => throw failure

/-- Whether a failure is one that calls can end in. They never meet a stack without frames, and of
the primitives only the composition refuses its operands without saying why. -/
def Failure.expected : Failure → Bool
  | .error .emptyStack | .error .popFromEmptyStack => false
  | .error (.invalidForm name .wrongShape) => name = Text.ofString Builtin.compose.name
  | _ => true

/-- The outcome befits a primitive of the given arity. Procedures are made by composing others. -/
def Outcome.Fits (arity : Arity) (args : List Value) (table : Procedures) : Outcome → Prop
  | .answer _ | .print _ => True
  | .make p => ∃ outer inner, p = (table.get outer).compose (table.get inner)
  | .fail failure => arity.accepts args.length = true → failure.expected = true

theorem Outcome.fits_fail {arity : Arity} {args : List Value} {table : Procedures}
    {failure : Failure} (h : failure.expected = true) : Fits arity args table (.fail failure) :=
  fun _ => h

theorem Arity.not_accepts_one {α : Type} {xs : List α} (h : ∀ x, xs ≠ [x]) :
    (exactly 1).accepts xs.length = false := by
  rcases xs with _ | ⟨x, _ | ⟨y, rest⟩⟩
  case cons.nil => exact absurd rfl (h x)
  all_goals simp [accepts]

theorem Arity.not_accepts_two {α : Type} {xs : List α} (h : ∀ x y, xs ≠ [x, y]) :
    (exactly 2).accepts xs.length = false := by
  rcases xs with _ | ⟨x, _ | ⟨y, _ | ⟨z, rest⟩⟩⟩
  case cons.cons.nil => exact absurd rfl (h x y)
  all_goals simp [accepts]

namespace Run

/-- In all stores with the given table, the computation comes to the same outcome. -/
def Settled (table : Procedures) (P : Outcome → Prop) (m : Run Value) : Prop :=
  ∃ o, P o ∧ ∀ s : Store, s.procedures = table → m s = o.perform s

section Settled

variable {table : Procedures} {P : Outcome → Prop}

theorem settled_pure {v : Value} (h : P (.answer v)) : Settled table P (pure v) :=
  ⟨.answer v, h, fun _ _ => rfl⟩

theorem settled_throw {failure : Failure} (h : P (.fail failure)) :
    Settled table P (throw failure) :=
  ⟨.fail failure, h, fun _ _ => rfl⟩

theorem settled_ofExcept {x : Except Failure Value} (hanswer : ∀ v, x = .ok v → P (.answer v))
    (hfail : ∀ failure, x = .error failure → P (.fail failure)) :
    Settled table P (ofExcept x) := by
  cases x with
  | ok v => exact settled_pure (hanswer v rfl)
  | error failure => exact settled_throw (hfail failure rfl)

theorem settled_display {room : Nat} {v : Value} {k : Text → Run Value}
    (hdepth : P (.fail .outOfDepth)) (hdigits : P (.fail .tooManyDigits))
    (hk : ∀ t, Settled table P (k t)) : Settled table P (display room v >>= k) := by
  obtain ⟨t, hwrite⟩ | ⟨hwrite, -⟩ | ⟨hwrite, -⟩ := v.write_cases table room
  · obtain ⟨o, ho, heq⟩ := hk t
    refine ⟨o, ho, fun s hs => ?_⟩
    have hdisplay : display room v s = .ok t s := by
      rw [display_eq, hs, hwrite]
      rfl
    rw [bind_of_ok hdisplay]
    exact heq s hs
  · refine ⟨.fail .outOfDepth, hdepth, fun s hs => bind_of_error ?_⟩
    rw [display_eq, hs, hwrite]
    rfl
  · refine ⟨.fail .tooManyDigits, hdigits, fun s hs => bind_of_error ?_⟩
    rw [display_eq, hs, hwrite]
    rfl

theorem settled_failShowing {arity : Arity} {args : List Value} (room : Nat) (v : Value)
    {e : Text → Error} (he : ∀ shown, (Failure.error (e shown)).expected = true) :
    Settled table (Outcome.Fits arity args table) (do
      let shown ← display room v
      fail (e shown)) :=
  settled_display (Outcome.fits_fail rfl) (Outcome.fits_fail rfl) fun shown =>
    settled_throw (Outcome.fits_fail (he shown))

/-- Operands are refused without a reason only if there are too few or too many. -/
theorem settled_refuse {name : Text} {arity : Arity} {args : List Value}
    (h : arity.accepts args.length = false) :
    Settled table (Outcome.Fits arity args table) (fail (.invalidForm name .wrongShape)) := by
  apply settled_throw
  intro haccepts
  rw [h] at haccepts
  exact nomatch haccepts

end Settled

end Run

/-! ### Builtins -/

namespace Builtin

open Run

variable {table : Procedures} {args : List Value} {room : Nat}

/-- What a builtin can come to. -/
abbrev Fitting (b : Builtin) (args : List Value) (table : Procedures) : Outcome → Prop :=
  Outcome.Fits (Primitive.builtin b).arity args table

theorem settled_number (b : Builtin) (x : Except ArithmeticFault Rat) :
    Settled table (b.Fitting args table) (number x) := by
  cases x with
  | ok q => exact settled_pure trivial
  | error fault => exact settled_throw (Outcome.fits_fail rfl)

/-- Operands are turned into as many numbers, unless one of them is no number. -/
theorem settled_numbers {b b' : Builtin} {operands : List Value} {k : List Rat → Run Value}
    (hk : ∀ qs, qs.length = operands.length → Settled table (b.Fitting args table) (k qs)) :
    Settled table (b.Fitting args table) (b'.numbers room operands >>= k) := by
  induction operands generalizing k with
  | nil => exact hk [] rfl
  | cons v rest ih =>
    have hrefuse : ∀ shown, (fail (.wrongType b'.name (.notANumber shown)) >>= k : Run Value) =
        fail (.wrongType b'.name (.notANumber shown)) := fun _ => rfl
    cases v with
    | num q =>
      simp only [numbers, bind_assoc, pure_bind]
      exact ih fun qs hqs => hk (q :: qs) (by simp [hqs])
    | _ =>
      simp only [numbers, bind_assoc, hrefuse]
      exact settled_failShowing room _ fun _ => rfl

theorem settled_onTwo {b : Builtin} (hb : (Primitive.builtin b).arity = .exactly 2)
    {f : Rat → Rat → Run Value}
    (hf : ∀ x y, Settled table (b.Fitting args table) (f x y)) :
    Settled table (b.Fitting args table) (b.onTwo room f args) := by
  apply settled_numbers
  intro qs hqs
  split
  · exact hf _ _
  · rename_i hne
    apply settled_refuse
    rw [hb, ← hqs]
    exact Arity.not_accepts_two hne

theorem settled_onOne {b : Builtin} (hb : (Primitive.builtin b).arity = .exactly 1)
    {f : Rat → Run Value}
    (hf : ∀ x, Settled table (b.Fitting args table) (f x)) :
    Settled table (b.Fitting args table) (b.onOne room f args) := by
  apply settled_numbers
  intro qs hqs
  split
  · exact hf _
  · rename_i hne
    apply settled_refuse
    rw [hb, ← hqs]
    exact Arity.not_accepts_one hne

/-- A composition is made of what the table holds at the time. -/
theorem settled_compose (outer inner : ProcId) :
    Settled table (compose.Fitting args table) (do
      let f ← procedure outer
      let g ← procedure inner
      make (f.compose g)) := by
  refine ⟨.make ((table.get outer).compose (table.get inner)), ⟨outer, inner, rfl⟩, ?_⟩
  rintro s rfl
  rfl

theorem settled_print (b : Builtin) (v : Value) :
    Settled table (b.Fitting args table) (match v.toText? with
      | some t => do
        Run.print t
        return .null
      | none => do
        let shown ← display room v
        fail (.wrongType b.name (.notAText shown))) := by
  cases v.toText? with
  | none => exact settled_failShowing room v fun _ => rfl
  | some t =>
    by_cases hencodable : t.Encodable
    · exact ⟨.print t, trivial, fun s _ => bind_of_ok (print_of_encodable hencodable s)⟩
    · refine ⟨.fail .unencodable, Outcome.fits_fail rfl, fun s _ => bind_of_error ?_⟩
      rw [print_of_not_encodable hencodable]
      rfl

/-- What a builtin comes to is settled by its operands, the table of procedures and the room that
there is for what it shows. -/
theorem settled_run (b : Builtin) (room : Nat) (args : List Value) (table : Procedures) :
    Settled table (b.Fitting args table) (b.run room args) := by
  cases b with
  | compose =>
    simp only [run]
    split
    · exact settled_compose _ _
    · exact settled_throw (Outcome.fits_fail (by decide))
  | equal =>
    simp only [run]
    split
    · exact settled_pure trivial
    · rename_i hne
      exact settled_refuse (Arity.not_accepts_two hne)
  | compare c => exact settled_onTwo rfl fun _ _ => settled_pure trivial
  | arith o => exact settled_onTwo rfl fun _ _ => settled_number _ _
  | log => exact settled_onTwo rfl fun _ _ => settled_number _ _
  | elementary f => exact settled_onOne rfl fun _ => settled_number _ _
  | numerator => exact settled_onOne rfl fun _ => settled_pure trivial
  | denominator => exact settled_onOne rfl fun _ => settled_pure trivial
  | toStr =>
    simp only [run]
    split
    · exact settled_display (Outcome.fits_fail rfl) (Outcome.fits_fail rfl) fun _ =>
        settled_pure trivial
    · rename_i hne
      exact settled_refuse (Arity.not_accepts_one hne)
  | toAtom =>
    simp only [run]
    split
    · exact settled_display (Outcome.fits_fail rfl) (Outcome.fits_fail rfl) fun _ =>
        settled_pure trivial
    · rename_i hne
      exact settled_refuse (Arity.not_accepts_one hne)
  | cons =>
    simp only [run]
    split
    · exact settled_pure trivial
    · rename_i hne
      exact settled_refuse (Arity.not_accepts_two hne)
  | car =>
    simp only [run]
    split
    · exact settled_pure trivial
    · exact settled_failShowing room _ fun _ => rfl
    · rename_i hne
      exact settled_refuse (Arity.not_accepts_one hne)
  | cdr =>
    simp only [run]
    split
    · exact settled_pure trivial
    · exact settled_failShowing room _ fun _ => rfl
    · rename_i hne
      exact settled_refuse (Arity.not_accepts_one hne)
  | print =>
    simp only [run]
    split
    · exact settled_print print _
    · rename_i hne
      exact settled_refuse (Arity.not_accepts_one hne)
  | test k =>
    simp only [run]
    split
    · exact settled_pure trivial
    · rename_i hne
      exact settled_refuse (Arity.not_accepts_one hne)

end Builtin

/-! ### Forms -/

theorem ReadFailure.expected_toFailure (failure : ReadFailure) :
    failure.toFailure.expected = true := by
  cases failure <;> rfl

namespace Form

open Run

/-- Whether a form evaluates something, or reads or changes the scopes, at the place of its call. -/
def usesCallSite : Form → Bool
  | choose | lambda _ | evaluate | load | bindInner | bindParent => true
  | quote | sequence | read => false

variable {table : Procedures} {args : List Value}

theorem settled_read (room : Nat) (v : Value) :
    Settled table (Outcome.Fits read.arity args table) (do
      let t ← read.string v
      Run.ofExcept ((Value.ofSource room t).mapError ReadFailure.toFailure)) := by
  unfold string
  cases v.toText? with
  | none => exact settled_throw (Outcome.fits_fail rfl)
  | some t =>
    rw [pure_bind]
    apply settled_ofExcept
    · exact fun _ _ => trivial
    · intro failure hfailure
      apply Outcome.fits_fail
      cases hread : Value.ofSource room t with
      | ok u =>
        rw [hread] at hfailure
        exact nomatch hfailure
      | error cause =>
        rw [hread] at hfailure
        rw [← Except.error.inj hfailure]
        exact cause.expected_toFailure

/-- What a form comes to is settled by its operands, unless it has to do with the place of the
call. -/
theorem settled_run (host : Host) (inner : Inner) {f : Form} (hf : f.usesCallSite = false)
    (args : List Value) (table : Procedures) :
    Settled table (Outcome.Fits f.arity args table) (f.run host inner args) := by
  cases f with
  | quote =>
    simp only [run]
    split
    · exact settled_pure trivial
    · rename_i hne
      exact settled_refuse (Arity.not_accepts_one hne)
  | sequence =>
    simp only [run]
    split
    · exact settled_pure trivial
    · exact settled_throw (Outcome.fits_fail rfl)
  | read =>
    simp only [run]
    split
    · exact settled_read inner.room _
    · rename_i hne
      exact settled_refuse (Arity.not_accepts_one hne)
  | _ => exact nomatch hf

end Form

end RationalLisp
