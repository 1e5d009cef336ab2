import RationalLisp.Proofs.Agreement

/-!
# Composition

A composition runs its inner part on the operands and hands the result to its outer part as it is.
This is what a call inside a call does, so a call of the composition and the nested call agree. It
also makes the way in which a longer composition is bracketed a matter of indifference: the parts
run one after the other, from the innermost one outwards.

The number of operands is checked by the composition for its inner part, and each outer part is
checked for taking a single operand. Only the name that such a check reports depends on how the
parts have been put together.
-/

namespace RationalLisp

open Run

/-! ### Compositions and nested calls -/

namespace Procedure

variable (host : Host) (inner : Inner) (a b c : Procedure) (operands : List Value)

/-- The inner part runs on the operands, then the outer part is checked and runs on the result. -/
theorem perform_compose : (b.compose a).perform host inner operands =
    (a.perform host inner operands >>= fun v => b.arity.check b.name 1 >>= fun _ =>
      b.code.run host inner [v]) := by
  simp only [perform, bind_assoc]
  rfl

variable {a b}

theorem perform_compose_of_accepts (h : b.arity.accepts 1 = true) :
    (b.compose a).perform host inner operands =
      (a.perform host inner operands >>= fun v => b.code.run host inner [v]) := by
  simp only [perform_compose, Arity.check_of_accepts h, pure_bind]

theorem perform_compose_of_ne {m : Nat} (harity : b.arity = .exactly m) (h : m ≠ 1) :
    (b.compose a).perform host inner operands =
      (a.perform host inner operands >>= fun _ => fail (.arity b.name m 1)) := by
  simp only [perform_compose, harity, Arity.check_of_ne h]
  rfl

/-- A procedure that evaluates its single operand runs its code on the value of that operand. -/
theorem perform_single (hpolicy : b.evaluatesOperands = true) (e : Value) :
    b.perform host inner [e] = (inner.eval e >>= fun v => b.code.run host inner [v]) := by
  simp only [perform_of_evaluates host inner hpolicy, evalAll, bind_assoc, pure_bind]

end Procedure

/-- A composition is the nested call. Let three expressions come to an outer procedure, to an inner
procedure and to their composition. If the outer one evaluates its operands and takes one operand,
then a call of the composition agrees with the call of the outer procedure on the call of the inner
one. If the number of operands does not fit, both fail before any operand has been evaluated, and
they differ only in the name that is reported. If the outer procedure does not take one operand, a
call of the composition runs the inner procedure and, after it has answered, fails. -/
theorem composition_is_nested_call (host : Host) (s : Store) (outer inner composed : ProcId)
    (outerHead innerHead composedHead : Value) (operands : List Value)
    (houter : Evaluates host outerHead s (.ok (.proc outer) s))
    (hinner : Evaluates host innerHead s (.ok (.proc inner) s))
    (hcomposed : Evaluates host composedHead s (.ok (.proc composed) s))
    (hget : s.procedures.get composed =
      (s.procedures.get outer).compose (s.procedures.get inner)) :
    let b := s.procedures.get outer
    let a := s.procedures.get inner
    let innerCall := Value.cell innerHead (.ofList operands)
    let nested := Value.cell outerHead (.ofList [innerCall])
    let call := Value.cell composedHead (.ofList operands)
    (b.evaluatesOperands = true → b.arity.accepts 1 = true →
      a.arity.accepts operands.length = true →
      Agree (fun depth => eval host depth call) (fun depth => eval host depth nested) s) ∧
    (∀ n, a.arity = .exactly n → n ≠ operands.length →
      EvaluatesTo host call s
        (.error (.error (.arity (s.procedures.get composed).name n operands.length)) s) ∧
      (b.evaluatesOperands = true → b.arity.accepts 1 = true →
        EvaluatesTo host nested s (.error (.error (.arity a.name n operands.length)) s))) ∧
    ∀ m, b.arity = .exactly m → m ≠ 1 → a.arity.accepts operands.length = true →
      Agree (fun depth => eval host depth call)
        (fun depth => eval host depth innerCall >>= fun _ => fail (.arity b.name m 1)) s := by
  intro b a innerCall nested call
  have harity : (s.procedures.get composed).arity = a.arity := by rw [hget]; rfl
  -- the call of the inner procedure, by itself
  have hinnerCall : a.arity.accepts operands.length = true →
      SameEnds (fun depth => a.perform host (Run.inner host depth) operands)
        (fun depth => eval host depth innerCall) s :=
    fun hcount => (SameEnds.cell hinner hcount).symm
  have hcall : a.arity.accepts operands.length = true →
      SameEnds (fun depth => eval host depth call)
        (fun depth => (b.compose a).perform host (Run.inner host depth) operands) s := by
    intro hcount
    rw [← hget]
    exact SameEnds.cell hcomposed (harity ▸ hcount)
  have hnested : b.evaluatesOperands = true → b.arity.accepts 1 = true →
      SameEnds (fun depth => eval host depth nested) (fun depth => eval host depth innerCall >>=
        fun v => b.code.run host (Run.inner host depth) [v]) s := by
    intro hpolicy hone
    have hsingle : SameEnds (fun depth => eval host depth nested)
        (fun depth => b.perform host (Run.inner host depth) [innerCall]) s :=
      SameEnds.cell houter hone
    exact hsingle.trans (.of_eq fun _ => congrFun (b.perform_single host _ hpolicy innerCall) s)
  refine ⟨fun hpolicy hone hcount => ?_, fun n hn hne => ⟨?_, fun hpolicy hone => ?_⟩,
    fun m hm hne hcount => ?_⟩
  · apply SameEnds.agree (steady_eval host call) (steady_eval host nested)
    refine ((hcall hcount).trans ?_).trans (hnested hpolicy hone).symm
    simp only [Procedure.perform_compose_of_accepts host _ operands hone]
    exact .bind (steady_perform host a operands) (steady_eval host innerCall) (hinnerCall hcount)
      fun v t _ => .refl _ t
  · exact (evaluates_cell_of_ne hcomposed (harity.trans hn) hne).evaluatesTo
  · have hends : ¬ Result.CutOff
        (.error (.error (.arity a.name n operands.length)) s : Result Value) := by
      simp [Result.cutOff_error_iff]
    exact Evaluates.evaluatesTo ((hnested hpolicy hone _ hends).mpr
      (evaluates_cell_of_ne hinner hn hne).bind_error)
  · have hsteady : Steady fun depth =>
        (eval host depth innerCall >>= fun _ => fail (.arity b.name m 1) : Run Value) :=
      steady_bind (steady_eval host innerCall) fun _ => steady_fail _
    apply SameEnds.agree (steady_eval host call) hsteady
    refine (hcall hcount).trans ?_
    simp only [Procedure.perform_compose_of_ne host _ operands hm hne]
    exact .bind (steady_perform host a operands) (steady_eval host innerCall) (hinnerCall hcount)
      fun v t _ => .refl _ t

namespace Compositions

/-- Two procedures and their composition. The inner one takes its operand as it is. -/
def composed : Store where
  frames := #[[("outer", .proc 0), ("inner", .proc 1), ("both", .proc 2)]]
  procedures :=
    let outer := Procedure.closure true (.fixed ["x"]) (.atom "x") [0]
    let inner := Procedure.closure false (.fixed ["x"]) (.atom "x") [0]
    #[outer, inner, outer.compose inner]
  stack := [0]
  pending := []
  output := .empty
  journal := .empty

/-- An operand that cannot be evaluated. -/
def operand : Value := .call "car" [.atom "nothing"]

end Compositions

open Compositions

/-- The outer procedure gets the result of the inner one as it is, although it evaluates its own
operands. -/
theorem composition_is_nested_call_unevaluated :
    (∃ t, eval .bare 3 (.call "both" [operand]) composed = .ok operand t) ∧
    eval .bare 4 (.call "outer" [.call "inner" [operand]]) composed =
      eval .bare 3 (.call "both" [operand]) composed := by
  have hcall : ∃ t, eval .bare 3 (.call "both" [operand]) composed = .ok operand t := ⟨_, rfl⟩
  have hnested : ∃ t, eval .bare 4 (.call "outer" [.call "inner" [operand]]) composed =
      .ok operand t := ⟨_, rfl⟩
  have huncut : ∀ {r : Result Value}, (∃ t, r = .ok operand t) → ¬ Result.CutOff r := by
    rintro _ ⟨t, rfl⟩
    exact Result.not_cutOff_ok operand t
  obtain ⟨hagree, -⟩ := composition_is_nested_call .bare composed 0 1 2 (.atom "outer")
    (.atom "inner") (.atom "both") [operand] (evaluates_atom rfl) (evaluates_atom rfl)
    (evaluates_atom rfl) rfl
  have heq := (hagree rfl rfl rfl).uncut 3 4 (huncut hcall) (huncut hnested)
  exact ⟨hcall, heq.symm⟩

/-! ### Bracketings -/

namespace Procedure

variable (host : Host) (inner : Inner) (a b c : Procedure) (operands : List Value)

/-- Both ways to compose three procedures run them one after the other. They differ in the name
under which the middle one is checked. -/
theorem perform_compose_left : ((c.compose b).compose a).perform host inner operands =
    (a.perform host inner operands >>= fun v =>
      b.arity.check (c.compose b).name 1 >>= fun _ => b.code.run host inner [v] >>= fun w =>
        c.arity.check c.name 1 >>= fun _ => c.code.run host inner [w]) :=
  perform_compose ..

theorem perform_compose_right : (c.compose (b.compose a)).perform host inner operands =
    (a.perform host inner operands >>= fun v =>
      b.arity.check b.name 1 >>= fun _ => b.code.run host inner [v] >>= fun w =>
        c.arity.check c.name 1 >>= fun _ => c.code.run host inner [w]) := by
  simp only [perform_compose, bind_assoc]

/-- Hand a value through procedures as it is, from the last one to the first. -/
def pipe (ps : List Procedure) (v : Value) : Run Value :=
  ps.foldrM (fun p v => p.code.run host inner [v]) v

theorem pipe_append (ps qs : List Procedure) (v : Value) :
    pipe host inner (ps ++ qs) v = (pipe host inner qs v >>= pipe host inner ps) :=
  List.foldrM_append

theorem pipe_single (v : Value) : pipe host inner [a] v = a.code.run host inner [v] := by
  simp [pipe]

end Procedure

/-- A way to compose procedures, two at a time. -/
inductive Bracketing where
  | single (p : Procedure)
  | compose (left right : Bracketing)

namespace Bracketing

/-- The procedures that are composed, outermost first. -/
def members : Bracketing → List Procedure
  | single p => [p]
  | compose left right => left.members ++ right.members

/-- The procedure that the composition comes to. -/
def procedure : Bracketing → Procedure
  | single p => p
  | compose left right => left.procedure.compose right.procedure

theorem exists_first (chain : Bracketing) :
    ∃ outer first, chain.members = outer ++ [first] := by
  induction chain with
  | single p => exact ⟨[], p, rfl⟩
  | compose outer inner _ ih =>
    obtain ⟨rest, first, h⟩ := ih
    exact ⟨outer.members ++ rest, first, by rw [members, h, List.append_assoc]⟩

/-- Number and policy of the operands are those of the procedure that runs first. -/
theorem policy_procedure {chain : Bracketing} {outer : List Procedure} {first : Procedure}
    (h : chain.members = outer ++ [first]) : chain.procedure.arity = first.arity ∧
      chain.procedure.evaluatesOperands = first.evaluatesOperands := by
  induction chain generalizing outer first with
  | single p =>
    obtain ⟨-, hp⟩ := List.append_inj' (show [] ++ [p] = outer ++ [first] from h) rfl
    cases hp
    exact ⟨rfl, rfl⟩
  | compose left right _ ih =>
    obtain ⟨rest, first', hright⟩ := right.exists_first
    rw [members, hright, ← List.append_assoc] at h
    obtain ⟨-, hfirst⟩ := List.append_inj' h rfl
    cases hfirst
    exact ih hright

/-- However a chain of procedures is bracketed, the first one runs on the operands and its result is
handed through the others. -/
theorem run_procedure (host : Host) (inner : Inner) {chain : Bracketing} {outer : List Procedure}
    {first : Procedure} (h : chain.members = outer ++ [first])
    (hone : ∀ p ∈ outer, p.arity.accepts 1 = true) (args : List Value) :
    chain.procedure.code.run host inner args =
      (first.code.run host inner args >>= Procedure.pipe host inner outer) := by
  induction chain generalizing outer first args with
  | single p =>
    obtain ⟨houter, hp⟩ := List.append_inj' (show [] ++ [p] = outer ++ [first] from h) rfl
    cases hp
    subst houter
    exact (bind_pure _).symm
  | compose left right ihLeft ihRight =>
    obtain ⟨leftOuter, leftFirst, hleft⟩ := left.exists_first
    obtain ⟨rightOuter, rightFirst, hright⟩ := right.exists_first
    rw [members, hleft, hright, ← List.append_assoc] at h
    obtain ⟨houter, hfirst⟩ := List.append_inj' h rfl
    cases hfirst
    subst houter
    have hone' : left.procedure.arity.accepts 1 = true := by
      rw [(policy_procedure hleft).1]
      exact hone leftFirst (by simp)
    have hrunLeft := ihLeft hleft fun p hp => hone p (by simp [hp])
    have hrunRight := ihRight hright fun p hp => hone p (by simp [hp])
    calc (compose left right).procedure.code.run host inner args
        = (right.procedure.code.run host inner args >>= fun v =>
            left.procedure.arity.check left.procedure.name 1 >>= fun _ =>
              left.procedure.code.run host inner [v]) := rfl
      _ = (first.code.run host inner args >>= Procedure.pipe host inner rightOuter >>=
            fun v => leftFirst.code.run host inner [v] >>=
              Procedure.pipe host inner leftOuter) := by
          simp only [hrunRight, hrunLeft, Arity.check_of_accepts hone', pure_bind]
      _ = (first.code.run host inner args >>=
            Procedure.pipe host inner (leftOuter ++ [leftFirst] ++ rightOuter)) := by
          simp only [bind_assoc, funext (Procedure.pipe_append host inner _ _),
            Procedure.pipe_single]

end Bracketing

/-- Composition is associative. The two ways to compose three procedures give procedures of the same
arity, policy and printed form. If the middle one takes one operand, they come to the same on all
operands in every store. If it does not, both run the innermost procedure and then fail, and they
differ only in the name that is reported. However a chain of procedures is bracketed, all of which
but the innermost take one operand, the innermost one is run on the operands and its result is
handed, as it is, through the others. -/
theorem composition_is_associative (host : Host) (inner : Inner) (a b c : Procedure) (s : Store)
    (left right : ProcId) (operands : List Value)
    (hleft : s.procedures.get left = (c.compose b).compose a)
    (hright : s.procedures.get right = c.compose (b.compose a)) :
    ((s.procedures.get left).arity = (s.procedures.get right).arity ∧
      (s.procedures.get left).evaluatesOperands = (s.procedures.get right).evaluatesOperands ∧
      (s.procedures.get left).text = (s.procedures.get right).text) ∧
    (b.arity.accepts 1 = true ∨ a.arity.accepts operands.length = false →
      apply host inner (.proc left) operands s = apply host inner (.proc right) operands s) ∧
    (∀ m, b.arity = .exactly m → m ≠ 1 → a.arity.accepts operands.length = true →
      apply host inner (.proc left) operands s =
        (a.perform host inner operands >>= fun _ => fail (.arity (c.compose b).name m 1)) s ∧
      apply host inner (.proc right) operands s =
        (a.perform host inner operands >>= fun _ => fail (.arity b.name m 1)) s) ∧
    ∀ (chain : Bracketing) (outer : List Procedure) (first : Procedure) (id : ProcId),
      chain.members = outer ++ [first] → (∀ p ∈ outer, p.arity.accepts 1 = true) →
      s.procedures.get id = chain.procedure →
      (chain.procedure.arity = first.arity ∧
        chain.procedure.evaluatesOperands = first.evaluatesOperands) ∧
      (first.arity.accepts operands.length = true →
        apply host inner (.proc id) operands s =
          (first.perform host inner operands >>= Procedure.pipe host inner outer) s) ∧
      ∀ n, first.arity = .exactly n → n ≠ operands.length →
        apply host inner (.proc id) operands s =
          .error (.error (.arity chain.procedure.name n operands.length)) s := by
  have hname : ((c.compose b).compose a).name = (c.compose (b.compose a)).name := by
    simp [Procedure.compose]
  have hparts : (s.procedures.get left).arity = (s.procedures.get right).arity ∧
      (s.procedures.get left).evaluatesOperands = (s.procedures.get right).evaluatesOperands ∧
      (s.procedures.get left).name = (s.procedures.get right).name := by
    rw [hleft, hright]
    exact ⟨rfl, rfl, hname⟩
  obtain ⟨harity, hpolicy, hname'⟩ := hparts
  have harityLeft : (s.procedures.get left).arity = a.arity := by rw [hleft]; rfl
  have harityRight : (s.procedures.get right).arity = a.arity := by rw [hright]; rfl
  refine ⟨⟨harity, hpolicy, ?_⟩, ?_, fun m hm hne hcount => ⟨?_, ?_⟩,
    fun chain outer first id hmembers hone hget => ⟨?_, fun hcount => ?_, fun n hn hne => ?_⟩⟩
  · rw [Procedure.text, Procedure.text, harity, hname']
  · rintro (hone | hcount)
    · simp only [apply, call_eq, harity, hname']
      rw [hleft, hright, Procedure.perform_compose_left, Procedure.perform_compose_right,
        Arity.check_of_accepts hone, Arity.check_of_accepts hone]
    · obtain ⟨n, hn, hne⟩ := Arity.exists_of_not_accepts hcount
      simp only [apply]
      rw [call_of_ne (harityLeft.trans hn) hne, call_of_ne (harityRight.trans hn) hne, hname']
  · simp only [apply]
    rw [call_of_accepts (harityLeft ▸ hcount), hleft, Procedure.perform_compose_left, hm,
      Arity.check_of_ne hne]
    rfl
  · simp only [apply]
    rw [call_of_accepts (harityRight ▸ hcount), hright, Procedure.perform_compose_right, hm,
      Arity.check_of_ne hne]
    rfl
  · exact Bracketing.policy_procedure hmembers
  · obtain ⟨harity, hpolicy⟩ := Bracketing.policy_procedure hmembers
    simp only [apply]
    rw [call_of_accepts (by rw [hget, harity]; exact hcount), hget]
    simp only [Procedure.perform, Procedure.resolve, hpolicy,
      funext (Bracketing.run_procedure host inner hmembers hone), bind_assoc]
  · obtain ⟨harity, -⟩ := Bracketing.policy_procedure hmembers
    simp only [apply]
    rw [call_of_ne (by rw [hget, harity]; exact hn) hne, hget]

namespace Compositions

/-- A procedure that answers with the list of its operands as they are. -/
def operandsAsTheyAre : Procedure := .closure false .variadic (.atom "args") []

/-- Both ways to compose `car`, a builtin and the procedure above. The builtin is `cdr`, which takes
one operand, and then `cons`, which does not. -/
def chained : Store where
  frames := #[]
  procedures :=
    let car := Procedure.ofPrimitive (.builtin .car)
    let cdr := Procedure.ofPrimitive (.builtin .cdr)
    let cons := Procedure.ofPrimitive (.builtin .cons)
    #[(car.compose cdr).compose operandsAsTheyAre, car.compose (cdr.compose operandsAsTheyAre),
      (car.compose cons).compose operandsAsTheyAre, car.compose (cons.compose operandsAsTheyAre)]
  stack := []
  pending := []
  output := .empty
  journal := .empty

end Compositions

/-- With `cdr` in the middle, both ways answer with the second of two operands. With `cons` in the
middle, they fail and report `car.cons` and `cons`. -/
theorem composition_is_associative_second :
    (∃ t, apply .bare (Run.inner .bare 1) (.proc 0) [.null, operand] chained = .ok operand t) ∧
    apply .bare (Run.inner .bare 1) (.proc 0) [.null, operand] chained =
      apply .bare (Run.inner .bare 1) (.proc 1) [.null, operand] chained ∧
    (∃ t, apply .bare (Run.inner .bare 1) (.proc 2) [.null, operand] chained =
      .error (.error (.arity "car.cons" 2 1)) t) ∧
    ∃ t, apply .bare (Run.inner .bare 1) (.proc 3) [.null, operand] chained =
      .error (.error (.arity "cons" 2 1)) t := by
  obtain ⟨-, hsame, -, -⟩ := composition_is_associative .bare (Run.inner .bare 1)
    operandsAsTheyAre (.ofPrimitive (.builtin .cdr)) (.ofPrimitive (.builtin .car)) chained 0 1
    [.null, operand] rfl rfl
  obtain ⟨-, -, hrefused, -⟩ := composition_is_associative .bare (Run.inner .bare 1)
    operandsAsTheyAre (.ofPrimitive (.builtin .cons)) (.ofPrimitive (.builtin .car)) chained 2 3
    [.null, operand] rfl rfl
  obtain ⟨hleft, hright⟩ := hrefused 2 rfl (by decide) rfl
  exact ⟨⟨_, rfl⟩, hsame (.inl rfl), ⟨_, hleft.trans rfl⟩, ⟨_, hright.trans rfl⟩⟩

end RationalLisp
