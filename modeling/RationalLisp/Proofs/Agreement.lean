import RationalLisp.Proofs.BigSteps

/-!
# Agreement with enough room

Two computations can come to the same although one of them needs more levels than the other. Whether
they do is a matter of their endings with enough room: each ending of the one has to be an ending of
the other, unless it is that of a run that was cut off. Such an agreement can be shown part by part:
a call ends as its operands and its code do, and a scope as what runs inside it.
What it says about single runs is `Agree`: no matter how much room each of the two has, they end in
the same way if neither is cut off.

## Implementation notes

The rules of the evaluator give endings of a whole from endings of its parts. To go back from the
whole to its parts, the parts have to be steady: with more room they go on where they were cut off
and change nothing else. Everything that evaluation is made of is steady.
-/

namespace RationalLisp

namespace Result

variable {α : Type}

theorem not_cutOff_ok (a : α) (s : Store) : ¬ CutOff (.ok a s) := by
  rintro ⟨t, ht⟩
  cases ht

theorem cutOff_error_iff {failure : Failure} {s : Store} :
    CutOff (.error failure s : Result α) ↔ failure = .outOfDepth := by
  simp [CutOff]

/-- The store at the end makes no difference to whether a run was cut off. -/
theorem cutOff_mapStore (f : Store → Store) (r : Result α) : CutOff (mapStore f r) ↔ CutOff r := by
  cases r <;> simp [CutOff, mapStore]

end Result

namespace Run

variable {α β : Type} {m m' : Nat → Run α} {n : Nat → Run α} {k k' : Nat → α → Run β}
variable {s t : Store}

/-! ### Steady computations -/

/-- With more room, the computation only goes on where it was cut off. -/
def Steady (m : Nat → Run α) : Prop :=
  ∀ ⦃depth depth' : Nat⦄, depth ≤ depth' → Prolongs (m depth') (m depth)

theorem steady_pure (a : α) : Steady fun _ => (pure a : Run α) := fun _ _ _ => prolongs_pure a

theorem steady_fail (e : Error) : Steady fun _ => (fail e : Run α) := fun _ _ _ => prolongs_throw _

theorem steady_bind (hm : Steady m) (hk : ∀ a, Steady fun depth => k depth a) :
    Steady fun depth => m depth >>= k depth :=
  fun _ _ h => prolongs_bind (hm h) fun a => hk a h

theorem steady_eval (host : Host) (e : Value) : Steady fun depth => eval host depth e :=
  fun _ _ h => prolongs_eval host h e

theorem steady_evalAll (host : Host) (operands : List Value) :
    Steady fun depth => evalAll (eval host depth) operands :=
  fun _ _ h => prolongs_evalAll (prolongs_inner host h) operands

theorem steady_code (host : Host) (code : Code) (args : List Value) :
    Steady fun depth => code.run host (inner host depth) args :=
  fun _ _ h => code.prolongs_run (prolongs_inner host h) host args

/-- A run that is not cut off ends as all runs with more room do. -/
theorem Steady.ends (hm : Steady m) {depth : Nat} (h : ¬ Result.CutOff (m depth s)) :
    Ends m s (m depth s) :=
  ⟨depth, fun _ hdepth => (hm hdepth).eq_of_not_cutOff h⟩

/-! ### Endings of a whole and of its parts -/

theorem ends_succ_iff {r : Result α} : Ends (fun depth => m (depth + 1)) s r ↔ Ends m s r :=
  ⟨Ends.succ, Ends.shift⟩

/-- After a first part whose value is known, the whole ends as what comes next. -/
theorem ends_bind_iff {a : α} {r : Result β} (hm : Ends m s (.ok a t)) :
    Ends (fun depth => m depth >>= k depth) s r ↔ Ends (fun depth => k depth a) t r := by
  refine ⟨fun h => ?_, hm.bind⟩
  obtain ⟨least, hm⟩ := hm
  obtain ⟨least', h⟩ := h
  refine ⟨least + least', fun depth hdepth => ?_⟩
  rw [← h depth (by omega)]
  exact (bind_of_ok (hm depth (by omega))).symm

/-- A whole that is not cut off has come to its ending after a value of its first part, or by the
failure of that part. -/
theorem Steady.cases_bind (hm : Steady m) {r : Result β} (hr : ¬ Result.CutOff r)
    (h : Ends (fun depth => m depth >>= k depth) s r) :
    (∃ a t, Ends m s (.ok a t) ∧ Ends (fun depth => k depth a) t r) ∨
      ∃ failure t, Ends m s (.error failure t) ∧ r = .error failure t := by
  obtain ⟨least, hwhole⟩ := h
  have hr' : (m least >>= k least) s = r := hwhole least le_rfl
  have hfirst : ¬ Result.CutOff (m least s) := by
    rintro ⟨t, ht⟩
    rw [bind_of_error ht] at hr'
    exact hr ⟨t, hr'.symm⟩
  have hends := hm.ends hfirst
  cases hms : m least s with
  | ok a t =>
    rw [hms] at hends
    exact .inl ⟨a, t, hends, (ends_bind_iff hends).mp ⟨least, hwhole⟩⟩
  | error failure t =>
    rw [hms] at hends
    rw [bind_of_error hms] at hr'
    exact .inr ⟨failure, t, hends, hr'.symm⟩

/-! ### The same endings -/

/-- With enough room the two computations have the same endings, but for those of runs that were
cut off. -/
def SameEnds (m n : Nat → Run α) (s : Store) : Prop :=
  ∀ r, ¬ Result.CutOff r → (Ends m s r ↔ Ends n s r)

namespace SameEnds

theorem of_iff (h : ∀ r, Ends m s r ↔ Ends n s r) : SameEnds m n s := fun r _ => h r

theorem of_eq (h : ∀ depth, m depth s = n depth s) : SameEnds m n s := by
  apply of_iff
  intro r
  simp only [Ends, h]

theorem of_ends {r : Result α} (hm : Ends m s r) (hn : Ends n s r) : SameEnds m n s :=
  of_iff fun _ => ⟨fun h => h.unique hm ▸ hn, fun h => h.unique hn ▸ hm⟩

theorem refl (m : Nat → Run α) (s : Store) : SameEnds m m s := of_iff fun _ => Iff.rfl

theorem symm (h : SameEnds m n s) : SameEnds n m s := fun r hr => (h r hr).symm

theorem trans {l : Nat → Run α} (h : SameEnds l m s) (h' : SameEnds m n s) : SameEnds l n s :=
  fun r hr => (h r hr).trans (h' r hr)

/-- A first part that leaves the store alone and has a known value can be left out. -/
theorem bind_of_ok {a : α} (h : Ends m s (.ok a s)) :
    SameEnds (fun depth => m depth >>= k depth) (fun depth => k depth a) s :=
  of_iff fun _ => ends_bind_iff h

/-- Wholes have the same endings if their first parts have, and what comes next has after each value
of the first parts. -/
theorem bind (hm : Steady m) (hm' : Steady m') (h : SameEnds m m' s)
    (hk : ∀ a t, Ends m s (.ok a t) →
      SameEnds (fun depth => k depth a) (fun depth => k' depth a) t) :
    SameEnds (fun depth => m depth >>= k depth) (fun depth => m' depth >>= k' depth) s := by
  intro r hr
  constructor
  · intro hwhole
    obtain ⟨a, t, hfirst, hnext⟩ | ⟨failure, t, hfirst, rfl⟩ := hm.cases_bind hr hwhole
    · exact ((h _ (Result.not_cutOff_ok a t)).mp hfirst).bind ((hk a t hfirst r hr).mp hnext)
    · rw [Result.cutOff_error_iff] at hr
      exact ((h _ (mt Result.cutOff_error_iff.mp hr)).mp hfirst).bind_error
  · intro hwhole
    obtain ⟨a, t, hfirst, hnext⟩ | ⟨failure, t, hfirst, rfl⟩ := hm'.cases_bind hr hwhole
    · have hfirst' := (h _ (Result.not_cutOff_ok a t)).mpr hfirst
      exact hfirst'.bind ((hk a t hfirst' r hr).mpr hnext)
    · rw [Result.cutOff_error_iff] at hr
      exact ((h _ (mt Result.cutOff_error_iff.mp hr)).mpr hfirst).bind_error

/-- Scopes have the same endings if their bodies have inside them. -/
theorem withScope {frame : Frame} {base : Stack} (hm : Steady m) (hn : Steady n)
    (h : SameEnds m n (s.enter frame base)) :
    SameEnds (fun depth => withScope frame base (m depth))
      (fun depth => withScope frame base (n depth)) s := by
  -- an ending of the scope is an ending of the body, with the scope left
  have hbody : ∀ {m : Nat → Run α} {r : Result α}, Steady m → ¬ Result.CutOff r →
      Ends (fun depth => Run.withScope frame base (m depth)) s r →
      ∃ r', ¬ Result.CutOff r' ∧ Ends m (s.enter frame base) r' ∧
        r = Result.mapStore Store.leave r' := by
    rintro m r hm hr ⟨least, hscope⟩
    have hr' : Run.withScope frame base (m least) s = r := hscope least le_rfl
    rw [Simulation.withScope_eq] at hr'
    have hcut : ¬ Result.CutOff (m least (s.enter frame base)) := by
      rwa [← hr', Result.cutOff_mapStore] at hr
    exact ⟨_, hcut, hm.ends hcut, hr'.symm⟩
  intro r hr
  constructor
  · intro hscope
    obtain ⟨r', hr', hends, rfl⟩ := hbody hm hr hscope
    exact ((h r' hr').mp hends).withScope
  · intro hscope
    obtain ⟨r', hr', hends, rfl⟩ := hbody hn hr hscope
    exact ((h r' hr').mpr hends).withScope

end SameEnds

/-! ### Agreement of runs -/

/-- The two computations come to the same from the store: two runs that are not cut off end in the
same way, however much room each of them has, and if one of the computations has such a run then so
has the other. -/
structure Agree (m n : Nat → Run α) (s : Store) : Prop where
  uncut : ∀ depth depth', ¬ Result.CutOff (m depth s) → ¬ Result.CutOff (n depth' s) →
    m depth s = n depth' s
  room : (∃ depth, ¬ Result.CutOff (m depth s)) ↔ ∃ depth, ¬ Result.CutOff (n depth s)

/-- An ending of the one computation is an ending of the other. -/
theorem Agree.exists_run (h : Agree m n s) {r : Result α} (hn : ∃ depth, n depth s = r)
    (hr : ¬ Result.CutOff r) : ∃ depth, m depth s = r := by
  obtain ⟨depth, rfl⟩ := hn
  obtain ⟨depth', hcut⟩ := h.room.mpr ⟨depth, hr⟩
  exact ⟨depth', h.uncut depth' depth hcut hr⟩

/-- Steady computations with the same endings agree. -/
theorem SameEnds.agree (hm : Steady m) (hn : Steady n) (h : SameEnds m n s) : Agree m n s where
  uncut depth depth' hcut hcut' :=
    ((h _ hcut).mp (hm.ends hcut)).unique (hn.ends hcut')
  room := by
    constructor
    · rintro ⟨depth, hcut⟩
      obtain ⟨least, hends⟩ := (h _ hcut).mp (hm.ends hcut)
      exact ⟨least, by rwa [hends least le_rfl]⟩
    · rintro ⟨depth, hcut⟩
      obtain ⟨least, hends⟩ := (h _ hcut).mpr (hn.ends hcut)
      exact ⟨least, by rwa [hends least le_rfl]⟩

end Run

/-! ### Calls -/

open Run

namespace Arity

theorem check_of_accepts {arity : Arity} {count : Nat} (h : arity.accepts count = true)
    (name : Text) : arity.check name count = pure () := by
  cases arity with
  | variadic => rfl
  | exactly n => exact if_pos (of_decide_eq_true h)

theorem check_of_ne {n count : Nat} (h : n ≠ count) (name : Text) :
    (exactly n).check name count = fail (.arity name n count) :=
  if_neg h

theorem exists_of_not_accepts {arity : Arity} {count : Nat} (h : arity.accepts count = false) :
    ∃ n, arity = .exactly n ∧ n ≠ count := by
  cases arity with
  | variadic => exact nomatch h
  | exactly n => exact ⟨n, rfl, of_decide_eq_false h⟩

end Arity

namespace Procedure

/-- What the code of a procedure runs on: its operands, evaluated if that is its policy. -/
def resolve (inner : Inner) (p : Procedure) (operands : List Value) : Run (List Value) :=
  if p.evaluatesOperands then evalAll inner.eval operands else pure operands

/-- Run a procedure on operands that fit it. -/
def perform (host : Host) (inner : Inner) (p : Procedure) (operands : List Value) : Run Value :=
  p.resolve inner operands >>= p.code.run host inner

theorem perform_of_evaluates (host : Host) (inner : Inner) {p : Procedure}
    (hpolicy : p.evaluatesOperands = true) (operands : List Value) :
    p.perform host inner operands = (evalAll inner.eval operands >>= p.code.run host inner) := by
  rw [perform, resolve, if_pos hpolicy]

end Procedure

namespace Run

variable {host : Host} {inner : Inner} {s : Store} {id : ProcId} {operands : List Value}

theorem call_eq (host : Host) (inner : Inner) (s : Store) (id : ProcId) (operands : List Value) :
    call host inner id operands s =
      ((s.procedures.get id).arity.check (s.procedures.get id).name operands.length >>= fun _ =>
        (s.procedures.get id).perform host inner operands) s := by
  unfold call Procedure.perform Procedure.resolve
  rw [bind_of_ok (show procedure id s = .ok (s.procedures.get id) s from rfl)]
  cases (s.procedures.get id).evaluatesOperands <;> rfl

theorem call_of_accepts (h : (s.procedures.get id).arity.accepts operands.length = true) :
    call host inner id operands s = (s.procedures.get id).perform host inner operands s := by
  rw [call_eq, Arity.check_of_accepts h, pure_bind]

/-- If there are too few or too many operands, none of them is evaluated. -/
theorem call_of_ne {n : Nat} (harity : (s.procedures.get id).arity = .exactly n)
    (h : n ≠ operands.length) :
    call host inner id operands s =
      .error (.error (.arity (s.procedures.get id).name n operands.length)) s := by
  rw [call_eq, harity, Arity.check_of_ne h]
  rfl

theorem steady_perform (host : Host) (p : Procedure) (operands : List Value) :
    Steady fun depth => p.perform host (Run.inner host depth) operands := by
  refine steady_bind ?_ (steady_code host p.code)
  unfold Procedure.resolve
  cases p.evaluatesOperands with
  | true => exact steady_evalAll host operands
  | false => exact steady_pure operands

/-- A call ends as the procedure that its head comes to does on the operands. -/
theorem evaluates_cell_iff {head : Value} (hhead : Evaluates host head s (.ok (.proc id) s))
    (r : Result Value) : Evaluates host (.cell head (.ofList operands)) s r ↔
      Ends (fun depth => call host (Run.inner host depth) id operands) s r := by
  refine ends_succ_iff.symm.trans ?_
  simp only [eval, evalStep]
  refine (ends_bind_iff hhead).trans ?_
  simp only [Value.toList?_ofList]
  rfl

/-- A call on operands that fit. -/
theorem SameEnds.cell {head : Value} (hhead : Evaluates host head s (.ok (.proc id) s))
    (h : (s.procedures.get id).arity.accepts operands.length = true) :
    SameEnds (fun depth => eval host depth (.cell head (.ofList operands)))
      (fun depth => (s.procedures.get id).perform host (Run.inner host depth) operands) s :=
  (SameEnds.of_iff (evaluates_cell_iff hhead)).trans (.of_eq fun _ => call_of_accepts h)

theorem evaluates_cell_of_ne {head : Value} (hhead : Evaluates host head s (.ok (.proc id) s))
    {n : Nat} (harity : (s.procedures.get id).arity = .exactly n) (h : n ≠ operands.length) :
    Evaluates host (.cell head (.ofList operands)) s
      (.error (.error (.arity (s.procedures.get id).name n operands.length)) s) :=
  (evaluates_cell_iff hhead _).mpr (ends_of_eq fun _ => call_of_ne harity h)

/-- A call of a procedure by its name, on operands that fit. -/
theorem SameEnds.call {name : Text} {p : Procedure} (hname : s.StandsFor name p)
    (h : p.arity.accepts operands.length = true) :
    SameEnds (fun depth => eval host depth (.call name operands))
      (fun depth => p.perform host (Run.inner host depth) operands) s := by
  obtain ⟨id, hlookup, rfl⟩ := hname
  exact .cell (evaluates_atom hlookup) h

/-- A call of a procedure that evaluates its operands, where these leave the store as it is. -/
theorem SameEnds.call_evaluated {name : Text} {p : Procedure} {args : List Value}
    (hname : s.StandsFor name p) (h : p.arity.accepts operands.length = true)
    (hpolicy : p.evaluatesOperands = true)
    (hoperands : EvaluatesAll host operands s (.ok args s)) :
    SameEnds (fun depth => eval host depth (.call name operands))
      (fun depth => p.code.run host (Run.inner host depth) args) s := by
  refine (SameEnds.call hname h).trans ?_
  simp only [Procedure.perform_of_evaluates host _ hpolicy]
  exact .bind_of_ok hoperands

/-- A choice goes on with one of its branches. -/
theorem SameEnds.choose {name : Text} {condition yes no : Value} {b : Bool}
    (hname : s.Provides name (.form .choose))
    (hcondition : Evaluates host condition s (.ok (.bool b) s)) :
    SameEnds (fun depth => eval host depth (.call name [condition, yes, no]))
      (fun depth => eval host depth (bif b then yes else no)) s := by
  have hcall : SameEnds (fun depth => eval host depth (.call name [condition, yes, no]))
      (fun depth => eval host depth condition >>= fun v =>
        if v = .bool false then eval host depth no else eval host depth yes) s :=
    SameEnds.call hname rfl
  refine hcall.trans ((SameEnds.bind_of_ok hcondition).trans (.of_eq fun depth => ?_))
  cases b <;> rfl

/-- A builtin of two operands runs on their values. -/
theorem SameEnds.two {name : Text} {b : Builtin} {e e' : Value}
    (hname : s.Provides name (.builtin b)) (hcount : b.operandCount = 2) :
    SameEnds (fun depth => eval host depth (.call name [e, e']))
      (fun depth => eval host depth e >>= fun v => eval host depth e' >>= fun w =>
        b.run depth [v, w]) s := by
  let p := Procedure.ofPrimitive (.builtin b)
  have hcall : SameEnds (fun depth => eval host depth (.call name [e, e']))
      (fun depth => p.perform host (Run.inner host depth) [e, e']) s :=
    SameEnds.call hname (decide_eq_true hcount)
  refine hcall.trans (.of_eq fun depth => congrFun ?_ s)
  rw [Procedure.perform_of_evaluates host _ rfl]
  simp only [evalAll, bind_assoc, pure_bind]
  rfl

end Run

end RationalLisp
