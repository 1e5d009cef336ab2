import RationalLisp.Proofs.Showing
import RationalLisp.Proofs.Trace

/-!
# How evaluation can fail

Whatever the expression and the store, evaluation fails with an error of the language, for want of
depth, or in one of a few other ways: a number has too many digits, a text to be printed holds a
surrogate, an imported file does not hold UTF-8 text, the path of an import is too long or may not
be followed, or there is no working directory to look it up in.
-/

namespace RationalLisp

/-- The failures of evaluation that are neither errors of the language nor a lack of depth. -/
inductive Failure.Escapes : Failure → Prop
  | tooManyDigits : Escapes .tooManyDigits
  | unencodable : Escapes .unencodable
  | undecodable : Escapes .undecodable
  | nameTooLong : Escapes (.inaccessible .nameTooLong)
  | denied : Escapes (.inaccessible .denied)
  | noWorkingDirectory : Escapes (.inaccessible .missing)

/-- The failures of evaluation. -/
inductive Failure.Arises : Failure → Prop
  | error (e : Error) : Arises (.error e)
  | outOfDepth : Arises .outOfDepth
  | escapes {failure : Failure} : failure.Escapes → Arises failure

theorem ReadFailure.arises (failure : ReadFailure) : failure.toFailure.Arises := by
  cases failure with
  | malformed fault => exact .error _
  | tooManyDigits => exact .escapes .tooManyDigits
  | outOfDepth => exact .outOfDepth

/-! ### The surroundings -/

namespace Host

theorem isFile_cases (host : Host) (p : Path) :
    (∃ failure, host.isFile p = .error failure ∧ failure.Escapes) ∨
      ∃ isThere, host.isFile p = .ok isThere := by
  simp only [isFile, leadsTo]
  split
  · exact .inr ⟨_, rfl⟩
  split
  · exact .inr ⟨_, rfl⟩
  · exact .inl ⟨_, rfl, .nameTooLong⟩
  · exact .inl ⟨_, rfl, .denied⟩
  · exact .inr ⟨_, rfl⟩

/-- The search for a file ends at the first path that has no answer. -/
theorem firstFile?_cases (host : Host) (paths : List Path) :
    (∃ failure, host.firstFile? paths = .error failure ∧ failure.Escapes) ∨
      host.firstFile? paths = .ok none ∨
      ∃ p, host.firstFile? paths = .ok (some p) ∧ host.isFile p = .ok true := by
  induction paths with
  | nil => exact .inr (.inl rfl)
  | cons p paths ih =>
    rw [firstFile?]
    obtain ⟨failure, hfailure, hescapes⟩ | ⟨isThere, hfile⟩ := host.isFile_cases p
    · rw [hfailure]
      exact .inl ⟨failure, rfl, hescapes⟩
    · rw [hfile]
      cases isThere with
      | true => exact .inr (.inr ⟨p, rfl, hfile⟩)
      | false => exact ih

theorem candidates_cases (host : Host) (p : Path) :
    host.candidates p = .error (.inaccessible .missing) ∨
      ∃ paths, host.candidates p = .ok paths := by
  simp only [candidates, searchRoots]
  split
  · exact .inr ⟨_, rfl⟩
  split
  · exact .inr ⟨_, rfl⟩
  · exact .inl rfl

theorem resolve_of_candidates {host : Host} {path : Text} {paths : List Path}
    (h : host.candidates (.ofText path) = .ok paths) :
    host.resolve path = (do
      match ← host.firstFile? paths with
      | some found => .ok found
      | none => .error (.error (.sourceNotFound path))) := by
  rw [resolve, h]
  rfl

theorem resolve_cases (host : Host) (path : Text) :
    (∃ failure, host.resolve path = .error failure ∧ failure.Escapes) ∨
      host.resolve path = .error (.error (.sourceNotFound path)) ∨
      ∃ p, host.resolve path = .ok p ∧ host.isFile p = .ok true := by
  obtain hnowhere | ⟨paths, hpaths⟩ := host.candidates_cases (.ofText path)
  · rw [resolve, hnowhere]
    exact .inl ⟨_, rfl, .noWorkingDirectory⟩
  rw [resolve_of_candidates hpaths]
  obtain ⟨failure, h, hescapes⟩ | h | ⟨p, h, hfile⟩ := host.firstFile?_cases paths
  · rw [h]
    exact .inl ⟨failure, rfl, hescapes⟩
  · rw [h]
    exact .inr (.inl rfl)
  · rw [h]
    exact .inr (.inr ⟨p, rfl, hfile⟩)

/-- What is known to be a file can be read, unless it is closed or does not hold text. -/
theorem readSource_cases {host : Host} {p : Path} (h : host.isFile p = .ok true) :
    (∃ text, host.readSource p = .ok text) ∨ (∃ e, host.readSource p = .error (.error e)) ∨
      host.readSource p = .error .undecodable := by
  simp only [isFile, leadsTo] at h
  split at h
  · exact nomatch h
  rename_i hpossible
  split at h
  · rename_i entry hentry
    simp only [readSource, if_neg hpossible, hentry]
    cases entry with
    | directory | closedDirectory => exact nomatch h
    | closedFile => exact .inr (.inl ⟨_, rfl⟩)
    | file content =>
      dsimp only
      cases Utf8.decode? content with
      | some t => exact .inl ⟨_, rfl⟩
      | none => exact .inr (.inr rfl)
  all_goals exact nomatch h

end Host

/-! ### Rules -/

namespace Run

variable {α β : Type}

/-- However the computation fails, it is a failure of evaluation. -/
def Tame (m : Run α) : Prop := ∀ s failure t, m s = .error failure t → failure.Arises

theorem tame_of_ok {m : Run α} (h : ∀ s, ∃ a t, m s = .ok a t) : Tame m := by
  intro s failure t hfailure
  obtain ⟨a, u, hok⟩ := h s
  rw [hok] at hfailure
  exact nomatch hfailure

theorem tame_pure (a : α) : Tame (pure a) := tame_of_ok fun s => ⟨a, s, rfl⟩

theorem tame_throw {failure : Failure} (h : failure.Arises) : Tame (throw failure : Run α) := by
  intro s failure' t heq
  cases heq
  exact h

theorem tame_fail (e : Error) : Tame (fail e : Run α) := tame_throw (.error e)

theorem tame_bind {m : Run α} {k : α → Run β} (hm : Tame m) (hk : ∀ a, Tame (k a)) :
    Tame (m >>= k) := by
  intro s failure t h
  cases hs : m s with
  | ok a u =>
    rw [bind_of_ok hs] at h
    exact hk a u failure t h
  | error cause u =>
    rw [bind_of_error hs] at h
    cases h
    exact hm s failure t hs

theorem tame_withScope {m : Run α} (hm : Tame m) (frame : Frame) (base : Stack) :
    Tame (withScope frame base m) := by
  intro s failure t h
  rw [withScope] at h
  split at h
  · exact nomatch h
  · rename_i hs
    cases h
    exact hm _ _ _ hs

theorem tame_ofExcept {x : Except Failure α} (h : ∀ failure, x = .error failure → failure.Arises) :
    Tame (ofExcept x) := by
  cases x with
  | ok a => exact tame_pure a
  | error failure => exact tame_throw (h failure rfl)

theorem tame_display (room : Nat) (v : Value) : Tame (display room v) := by
  intro s failure t h
  refine tame_ofExcept (fun failure hfailure => ?_) s failure t h
  obtain ⟨text, hwrite⟩ | ⟨hwrite, -⟩ | ⟨hwrite, -⟩ := v.write_cases s.procedures room
  · rw [hwrite] at hfailure
    exact nomatch hfailure
  · rw [hwrite] at hfailure
    cases hfailure
    exact .outOfDepth
  · rw [hwrite] at hfailure
    cases hfailure
    exact .escapes .tooManyDigits

theorem tame_failShowing (room : Nat) (v : Value) (e : Text → Error) :
    Tame (do
      let shown ← display room v
      fail (e shown) : Run α) :=
  tame_bind (tame_display room v) fun _ => tame_fail _

theorem tame_lookup (name : Text) : Tame (lookup name) := by
  intro s failure t h
  rw [lookup_eq] at h
  split at h
  · exact nomatch h
  · cases h
    exact .error _

theorem tame_modify (f : Store → Store) : Tame (modify f) := tame_of_ok fun _ => ⟨_, _, rfl⟩

theorem tame_print (t : Text) : Tame (print t) := by
  unfold print
  split
  · exact tame_modify _
  · exact tame_throw (.escapes .unencodable)

theorem tame_procedure (id : ProcId) : Tame (procedure id) := tame_of_ok fun _ => ⟨_, _, rfl⟩

theorem tame_make (p : Procedure) : Tame (make p) := tame_of_ok fun _ => ⟨_, _, rfl⟩

theorem tame_bindInnermost (name : Text) (v : Value) : Tame (bindInnermost name v) := by
  refine tame_bind ?_ fun id => tame_modify _
  refine tame_bind (tame_of_ok fun s => ⟨s, s, rfl⟩) fun s => ?_
  split
  · exact tame_pure _
  · exact tame_fail _

theorem tame_bindParent (name : Text) (v : Value) : Tame (bindParent name v) := by
  refine tame_bind (tame_of_ok fun s => ⟨s, s, rfl⟩) fun s => ?_
  split
  · exact tame_fail _
  · exact tame_fail _
  · exact tame_modify _

end Run

/-! ### Primitives -/

namespace Builtin

open Run

variable (b : Builtin) (room : Nat)

theorem tame_numbers (args : List Value) : Tame (b.numbers room args) := by
  induction args with
  | nil => exact tame_pure _
  | cons v rest ih =>
    cases v with
    | num q => exact tame_bind ih fun _ => tame_pure _
    | _ => exact tame_failShowing room _ _

theorem tame_number (x : Except ArithmeticFault Rat) : Tame (number x) := by
  cases x with
  | ok q => exact tame_pure _
  | error fault => exact tame_fail _

theorem tame_onTwo {f : Rat → Rat → Run Value} (hf : ∀ x y, Tame (f x y)) (args : List Value) :
    Tame (b.onTwo room f args) := by
  refine tame_bind (b.tame_numbers room args) fun qs => ?_
  split
  · exact hf _ _
  · exact tame_fail _

theorem tame_onOne {f : Rat → Run Value} (hf : ∀ x, Tame (f x)) (args : List Value) :
    Tame (b.onOne room f args) := by
  refine tame_bind (b.tame_numbers room args) fun qs => ?_
  split
  · exact hf _
  · exact tame_fail _

theorem tame_run (args : List Value) : Tame (b.run room args) := by
  cases b with
  | compare c => exact tame_onTwo _ room (fun _ _ => tame_pure _) args
  | arith _ | log => exact tame_onTwo _ room (fun _ _ => tame_number _) args
  | elementary f => exact tame_onOne _ room (fun _ => tame_number _) args
  | numerator | denominator => exact tame_onOne _ room (fun _ => tame_pure _) args
  | compose =>
    simp only [run]
    split
    · exact tame_bind (tame_procedure _) fun f => tame_bind (tame_procedure _) fun g => tame_make _
    · exact tame_fail _
  | equal | cons | test _ =>
    simp only [run]
    split
    · exact tame_pure _
    · exact tame_fail _
  | toStr | toAtom =>
    simp only [run]
    split
    · exact tame_bind (tame_display room _) fun _ => tame_pure _
    · exact tame_fail _
  | car | cdr =>
    simp only [run]
    split
    · exact tame_pure _
    · exact tame_failShowing room _ _
    · exact tame_fail _
  | print =>
    simp only [run]
    split
    · split
      · exact tame_bind (tame_print _) fun _ => tame_pure _
      · exact tame_failShowing room _ _
    · exact tame_fail _

end Builtin

namespace Run

variable {eval : Value → Run Value}

theorem tame_sequence (heval : ∀ e, Tame (eval e)) (last : Value) (exprs : List Value) :
    Tame (sequence eval last exprs) := by
  induction exprs generalizing last with
  | nil => exact tame_pure last
  | cons e rest ih => exact tame_bind (heval e) ih

theorem tame_program (heval : ∀ e, Tame (eval e)) (p : Program) : Tame (program eval p) := by
  refine tame_bind (tame_sequence heval .null p.exprs) fun v => ?_
  split
  · exact tame_pure v
  · exact tame_throw (ReadFailure.arises _)

/-- An import reads a file that is known to be there. -/
theorem tame_load (host : Host) {inner : Inner} (heval : ∀ e, Tame (inner.eval e)) (path : Text) :
    Tame (load host inner path) := by
  unfold load
  obtain ⟨failure, h, hescapes⟩ | h | ⟨p, h, hfile⟩ := host.resolve_cases path
  · rw [h]
    exact tame_throw (.escapes hescapes)
  · rw [h]
    exact tame_fail _
  · have hread : Tame (source host inner p) := by
      refine tame_bind (tame_ofExcept fun failure hfailure => ?_) fun text => tame_program heval _
      obtain ⟨text, htext⟩ | ⟨e, hclosed⟩ | hundecodable := Host.readSource_cases hfile
      · rw [htext] at hfailure
        exact nomatch hfailure
      · rw [hclosed] at hfailure
        cases hfailure
        exact .error e
      · rw [hundecodable] at hfailure
        cases hfailure
        exact .escapes .undecodable
    rw [h, ofExcept, pure_bind]
    exact tame_bind (tame_modify _) fun _ => hread

end Run

namespace Form

open Run

theorem tame_string (f : Form) (v : Value) : Tame (f.string v) := by
  unfold string
  split
  · exact tame_pure _
  · exact tame_fail _

theorem tame_run (host : Host) {inner : Inner} (heval : ∀ e, Tame (inner.eval e)) (f : Form)
    (args : List Value) : Tame (f.run host inner args) := by
  cases f with
  | choose =>
    simp only [run]
    split
    · refine tame_bind (heval _) fun v => ?_
      split
      · exact heval _
      · exact heval _
    · exact tame_fail _
  | quote | sequence =>
    simp only [run]
    split
    · exact tame_pure _
    · exact tame_fail _
  | lambda k =>
    simp only [run]
    split
    · split
      · exact tame_bind (tame_of_ok fun _ => ⟨_, _, rfl⟩) fun _ => tame_make _
      · exact tame_fail _
    · exact tame_fail _
  | evaluate =>
    simp only [run]
    split
    · exact heval _
    · exact tame_fail _
  | load =>
    simp only [run]
    split
    · exact tame_bind (tame_string _ _) fun path => tame_load host heval path
    · exact tame_fail _
  | read =>
    simp only [run]
    split
    · refine tame_bind (tame_string _ _) fun t => tame_ofExcept fun failure hfailure => ?_
      cases hread : Value.ofSource inner.room t with
      | ok v =>
        rw [hread] at hfailure
        exact nomatch hfailure
      | error cause =>
        rw [hread] at hfailure
        cases hfailure
        exact cause.arises
    · exact tame_fail _
  | bindInner =>
    simp only [run]
    split
    · exact tame_bind (tame_bindInnermost _ _) fun _ => tame_pure _
    · exact tame_fail _
  | bindParent =>
    simp only [run]
    split
    · exact tame_bind (tame_bindParent _ _) fun _ => tame_pure _
    · exact tame_fail _

end Form

/-! ### Evaluation -/

namespace Run

variable {inner : Inner}

theorem tame_check (arity : Arity) (name : Text) (count : Nat) : Tame (arity.check name count) := by
  unfold Arity.check
  split
  · exact tame_pure _
  · split
    · exact tame_pure _
    · exact tame_fail _

theorem tame_code (host : Host) (heval : ∀ e, Tame (inner.eval e)) (c : Code) (args : List Value) :
    Tame (c.run host inner args) := by
  induction c generalizing args with
  | primitive p =>
    cases p with
    | builtin b => exact b.tame_run inner.room args
    | form f => exact f.tame_run host heval args
  | closure params body captured => exact tame_withScope (heval body) _ _
  | composition name arity f g ihf ihg =>
    exact tame_bind (ihg args) fun v => tame_bind (tame_check arity name 1) fun _ => ihf [v]
  | operands => exact tame_pure _

theorem tame_evalAll {eval : Value → Run Value} (heval : ∀ e, Tame (eval e))
    (operands : List Value) : Tame (evalAll eval operands) := by
  induction operands with
  | nil => exact tame_pure _
  | cons e rest ih => exact tame_bind (heval e) fun v => tame_bind ih fun vs => tame_pure _

theorem tame_call (host : Host) (heval : ∀ e, Tame (inner.eval e)) (id : ProcId)
    (operands : List Value) : Tame (call host inner id operands) := by
  refine tame_bind (tame_procedure id) fun p => tame_bind (tame_check _ _ _) fun _ => ?_
  dsimp only
  split
  · exact tame_bind (tame_evalAll heval operands) fun args => tame_code host heval p.code args
  · exact tame_bind (tame_pure operands) fun args => tame_code host heval p.code args

theorem tame_evalStep (host : Host) (heval : ∀ e, Tame (inner.eval e)) (e : Value) :
    Tame (evalStep host inner e) := by
  cases e with
  | atom name => exact tame_lookup name
  | cell head tail =>
    refine tame_bind (heval head) fun f => ?_
    split
    · split
      · exact tame_call host heval _ _
      · exact tame_failShowing _ _ _
    · exact tame_failShowing _ _ _
  | _ => exact tame_pure _

/-- Evaluation fails only in the ways listed. -/
theorem tame_eval (host : Host) (depth : Nat) (e : Value) : Tame (eval host depth e) := by
  induction depth generalizing e with
  | zero => exact tame_throw .outOfDepth
  | succ depth ih => exact tame_evalStep host ih e

theorem tame_evalText (host : Host) (depth : Nat) (source : Text) :
    Tame (evalText host depth source) :=
  tame_program (tame_eval host depth) _

end Run

end RationalLisp
