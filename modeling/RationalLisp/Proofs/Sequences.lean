import RationalLisp.Proofs.DepthLimits
import RationalLisp.Proofs.EvalFailures

/-!
# Three ways to run a sequence

The expressions of a text can be run one after the other, as the operands of `begin`, or from a file
that holds the text. Operands are evaluated before `begin` looks at them, a program is run one
expression at a time, and an import notes in the log what it reads. All three come to the same.
-/

namespace RationalLisp

open Simulation

/-! ### Files -/

/-- Text without carriage returns has its line ends as they should be. -/
theorem Text.unixLines_eq_self {t : Text} (h : ('\r' : CodePoint) ∉ t) : t.unixLines = t := by
  have hfold : ∀ (t seen : Text), ('\r' : CodePoint) ∉ t →
      t.foldl (fun (x : Text × Bool) (c : CodePoint) =>
        if c = '\r' then (('\n' : CodePoint) :: x.1, true)
        else if c = '\n' ∧ x.2 then (x.1, false)
        else (c :: x.1, false)) (seen, false) = (t.reverse ++ seen, false) := by
    intro t
    induction t with
    | nil => intro seen _; rfl
    | cons c t ih =>
      intro seen hreturns
      obtain ⟨hc, ht⟩ := List.ne_and_not_mem_of_not_mem_cons hreturns
      rw [List.foldl_cons, if_neg (Ne.symm hc), if_neg (by simp), ih _ ht]
      simp
  calc t.unixLines = (t.reverse ++ []).reverse :=
        congrArg (fun x => x.1.reverse) (hfold t [] h)
    _ = t := by simp

namespace Host

/-- The path stands for a file that holds the text in UTF-8. -/
def Holds (host : Host) (path source : Text) : Prop :=
  ∃ p content, host.resolve path = .ok p ∧ host.entry p = .ok (.file content) ∧
    Utf8.decode? content = some source

/-- A file that was found is read as it stands. -/
theorem Holds.readSource {host : Host} {path source : Text} (h : host.Holds path source)
    (hreturns : ('\r' : CodePoint) ∉ source) :
    ∃ p, host.resolve path = .ok p ∧ host.readSource p = .ok source := by
  obtain ⟨p, content, hp, hentry, hsource⟩ := h
  have hfile : host.isFile p = .ok true := by
    obtain ⟨failure, h, _⟩ | h | ⟨q, h, hfile⟩ := host.resolve_cases path
    · rw [h] at hp
      cases hp
    · rw [h] at hp
      cases hp
    · rw [h] at hp
      cases hp
      exact hfile
  have hpossible : p.isImpossible = false := by
    cases himpossible : p.isImpossible with
    | false => rfl
    | true => simp [isFile, leadsTo, himpossible] at hfile
  refine ⟨p, hp, ?_⟩
  simp [Host.readSource, hpossible, hentry, hsource, Text.unixLines_eq_self hreturns]

end Host

/-! ### The log -/

/-- The store with another log. -/
def Store.withJournal (s : Store) (journal : Journal) : Store := { s with journal := journal }

/-- Nothing that runs looks at the log. -/
theorem Simulation.unlogged : Simulation (W := Unit) (fun _ _ => True) (fun _ _ => True)
    (fun _ s t => ∃ journal, t = s.withJournal journal) (fun _ _ => True) where
  allowed_mono _ _ _ := trivial
  base_mono _ _ _ := trivial
  stack_eq := by
    rintro _ s _ ⟨journal, rfl⟩
    rfl
  procedures_eq := by
    rintro _ s _ ⟨journal, rfl⟩
    rfl
  lookup_eq := by
    rintro _ s _ ⟨journal, rfl⟩ name
    exact (Store.lookupIn_congr (s := s) (t := s.withJournal journal) rfl name s.stack).symm
  lookup_within _ _ _ _ := fun _ _ => trivial
  code_within h _ _ := ⟨(), le_rfl, h, ⟨fun _ _ _ _ => trivial, fun _ _ => trivial⟩⟩
  link_refl _ := trivial
  link_trans _ _ := trivial
  link_evaluating _ _ := trivial
  link_running _ _ _ := trivial
  bindAt := by
    rintro _ s _ ⟨journal, rfl⟩ id _ name v _
    exact ⟨⟨journal, rfl⟩, trivial⟩
  allocate := by
    rintro _ s _ ⟨journal, rfl⟩ p _ _
    exact ⟨(), le_rfl, ⟨journal, rfl⟩, trivial, trivial⟩
  print := by
    rintro _ s _ ⟨journal, rfl⟩ text
    exact ⟨⟨journal, rfl⟩, trivial⟩
  log := by
    rintro _ s _ ⟨journal, rfl⟩ logger severity message
    exact ⟨⟨_, rfl⟩, trivial⟩
  enter := by
    rintro _ s _ ⟨journal, rfl⟩ frame c _ _ _
    exact ⟨⟨journal, rfl⟩, trivial⟩
  leave := by
    rintro _ s _ _ frame c _ _ s' _ _ ⟨journal, rfl⟩ _ _
    refine ⟨⟨journal, ?_⟩, trivial⟩
    obtain ⟨_, _, _, _ | ⟨_, _⟩, _, _⟩ := s' <;> rfl

/-- A run from a store with another log comes to the same, but for the log. -/
theorem Run.sequence_withJournal (host : Host) (depth : Nat) (last : Value) (exprs : List Value)
    (s : Store) (journal : Journal) :
    ∃ journal', sequence (eval host depth) last exprs (s.withJournal journal) =
      Result.mapStore (·.withJournal journal') (sequence (eval host depth) last exprs s) := by
  have hsnd : (Traced.sequence (Traced.eval host depth) last exprs (s.withJournal journal)).2 =
      sequence (eval host depth) last exprs (s.withJournal journal) :=
    snd_eq_of_identity (identity.simulates_sequence (identity.simulates_eval host depth)
      (fun _ _ _ _ _ => trivial) fun _ _ => trivial) _
  have agree : Matches _ _ () (sequence (eval host depth) last exprs s)
      (Traced.sequence (Traced.eval host depth) last exprs (s.withJournal journal)).2 :=
    (unlogged.simulates_sequence (unlogged.simulates_eval host depth)
      (fun _ _ _ _ _ => trivial) (fun _ _ => trivial) s _ ⟨journal, rfl⟩).agree
  rw [hsnd] at agree
  generalize sequence (eval host depth) last exprs s = r at agree
  generalize sequence (eval host depth) last exprs (s.withJournal journal) = r' at agree
  cases agree with
  | ok _ _ hst =>
    obtain ⟨journal', rfl⟩ := hst
    exact ⟨journal', rfl⟩
  | error _ hst =>
    obtain ⟨journal', rfl⟩ := hst
    exact ⟨journal', rfl⟩

/-- An import notes what it reads, and runs it. -/
theorem Run.load_of_readSource {host : Host} (inner : Inner) {path source : Text} {p : Path}
    (hp : host.resolve path = .ok p) (hsource : host.readSource p = .ok source) (s : Store) :
    ∃ journal, load host inner path s =
      program inner.eval (.ofText inner.room source) (s.withJournal journal) := by
  let message : Text := ("Importing " : Text) ++ p.toText
  refine ⟨s.journal.record "silence.modules.source_loader" .debug message, ?_⟩
  have hread : ofExcept (host.readSource p) = pure source := by rw [hsource]; rfl
  rw [load, hp]
  change Run.source host inner p (s.withJournal _) = _
  rw [Run.source, hread, pure_bind]

/-! ### Operands -/

namespace Run

/-- Evaluating operands and taking the last of their values is evaluating them in turn. -/
theorem evalAll_getLast (eval : Value → Run Value) (last : Value) (exprs : List Value) :
    (evalAll eval exprs >>= fun vs => pure (vs.getLast?.getD last)) = sequence eval last exprs := by
  induction exprs generalizing last with
  | nil => rfl
  | cons e rest ih =>
    simp only [evalAll, sequence, bind_assoc, pure_bind, List.getLast?_cons, Option.getD_some]
    exact bind_congr ih

theorem evalAll_begin (host : Host) (inner : Inner) (eval : Value → Run Value) {exprs : List Value}
    (hexprs : exprs ≠ []) :
    (evalAll eval exprs >>= fun vs => Form.sequence.run host inner vs) =
      sequence eval .null exprs := by
  obtain ⟨e, rest, rfl⟩ := List.exists_cons_of_ne_nil hexprs
  simp only [evalAll, sequence, bind_assoc, pure_bind, Form.run, List.getLast?_cons]
  exact bind_congr fun v => evalAll_getLast eval v rest

end Run

/-- The name stands for the primitive. -/
def Store.Provides (s : Store) (name : Text) (p : Primitive) : Prop :=
  ∃ id, s.lookup? name = some (.proc id) ∧ s.procedures.get id = .ofPrimitive p

theorem Run.eval_begin (host : Host) (depth : Nat) {exprs : List Value} (hexprs : exprs ≠ [])
    {s : Store} (h : s.Provides "begin" (.form .sequence)) :
    eval host (depth + 2) (.cell (.atom "begin") (.ofList exprs)) s =
      sequence (eval host (depth + 1)) .null exprs s := by
  obtain ⟨id, hname, hproc⟩ := h
  have hhead : eval host (depth + 1) (.atom "begin") s = .ok (.proc id) s := by
    rw [eval, evalStep, lookup_eq, hname]
  have hprocedure : procedure id s = .ok (.ofPrimitive (.form .sequence)) s := by
    rw [← hproc]
    rfl
  rw [eval, evalStep, bind_of_ok hhead]
  simp only [Value.toList?_ofList]
  unfold call
  rw [bind_of_ok hprocedure]
  exact congrFun (evalAll_begin host (inner host (depth + 1)) _ hexprs) s

/-! ### Sequences -/

/-- Three ways to run the expressions of a text come to the same, as long as none of them is cut
off: as a program, as the operands of `begin`, and from a file that holds the text. They have the
same value or failure and leave the same store, but for what the import adds to the log. -/
theorem sequences_agree (host : Host) (s : Store) (source path : Text) (exprs : List Value)
    (room textDepth callDepth loadDepth : Nat) (hreturns : ('\r' : CodePoint) ∉ source)
    (hread : Program.ofText room source = ⟨exprs, none⟩) (hexprs : exprs ≠ [])
    (hbegin : s.Provides "begin" (.form .sequence)) (hfile : host.Holds path source)
    (htext : ¬ Result.CutOff (Run.evalText host textDepth source s))
    (hcall : ¬ Result.CutOff
      (Run.eval host callDepth (.cell (.atom "begin") (.ofList exprs)) s))
    (hload : ¬ Result.CutOff (Run.load host (Run.inner host loadDepth) path s)) :
    Run.eval host callDepth (.cell (.atom "begin") (.ofList exprs)) s =
      Run.evalText host textDepth source s ∧
    ∃ journal, Run.load host (Run.inner host loadDepth) path s =
      Result.mapStore (·.withJournal journal) (Run.evalText host textDepth source s) := by
  -- with room for all three of them, each run is the sequence of the expressions
  obtain ⟨depth, hdepth⟩ : ∃ depth, depth = room + textDepth + callDepth + loadDepth := ⟨_, rfl⟩
  have hprogram : Program.ofText (depth + 1) source = ⟨exprs, none⟩ := by
    have hmore := Program.prolongs_ofText (by omega : room ≤ depth + 1) source
    rw [hread] at hmore
    exact hmore.eq_of_faultless rfl
  have hrun : Run.program (Run.eval host (depth + 1)) (.ofText (depth + 1) source) =
      Run.sequence (Run.eval host (depth + 1)) .null exprs := by
    rw [hprogram]
    exact bind_pure _
  have htext' : Run.evalText host textDepth source s =
      Run.sequence (Run.eval host (depth + 1)) .null exprs s := by
    rw [← (Run.prolongs_evalText host (by omega : textDepth ≤ depth + 1) source).eq_of_not_cutOff
      htext, Run.evalText, hrun]
  have hcall' : Run.eval host callDepth (.cell (.atom "begin") (.ofList exprs)) s =
      Run.sequence (Run.eval host (depth + 1)) .null exprs s := by
    rw [← (Run.prolongs_eval host (by omega : callDepth ≤ depth + 2) _).eq_of_not_cutOff hcall,
      Run.eval_begin host depth hexprs hbegin]
  obtain ⟨p, hp, hsource⟩ := hfile.readSource hreturns
  obtain ⟨journal, hload'⟩ :=
    Run.load_of_readSource (Run.inner host (depth + 1)) hp hsource s
  have hinner := Run.prolongs_inner host (by omega : loadDepth ≤ depth + 1)
  rw [(Run.prolongs_load hinner host path).eq_of_not_cutOff hload] at hload'
  rw [htext', hcall', hload', Run.inner, hrun]
  exact ⟨rfl, Run.sequence_withJournal host (depth + 1) .null exprs s journal⟩

namespace Sequences

/-- A host with a file of two lines. -/
def library : Host :=
  { Host.bare with tree := [([("lib" : Text)], .file (Utf8.encode "1\nbegin"))] }

/-- A store in which expressions can be put into a sequence. -/
def sequencing : Store where
  frames := #[[("begin", .proc 0)]]
  procedures := #[.ofPrimitive (.form .sequence)]
  stack := [0]
  pending := []
  output := .empty
  journal := .empty

end Sequences

open Sequences

/-- The value of the second line is that of the sequence. -/
theorem sequences_agree_lines :
    library.Holds "lib" "1\nbegin" ∧
    Run.eval library 2 (.cell (.atom "begin") (.ofList [.num 1, .atom "begin"])) sequencing =
      Run.evalText library 1 "1\nbegin" sequencing ∧
    ∃ journal, Run.load library (Run.inner library 1) "lib" sequencing =
      Result.mapStore (·.withJournal journal) (Run.evalText library 1 "1\nbegin" sequencing) := by
  have hread : Program.ofText 1 "1\nbegin" = ⟨[.num 1, .atom "begin"], none⟩ := by
    decide +kernel
  have hfile : library.Holds "lib" "1\nbegin" :=
    ⟨⟨.slash, ["lib"]⟩, Utf8.encode "1\nbegin", by decide +kernel, by decide +kernel,
      by decide +kernel⟩
  refine ⟨hfile, sequences_agree library sequencing _ _ _ 1 1 2 1 (by decide) hread (by decide)
    ⟨0, rfl, rfl⟩ hfile ?_ ?_ ?_⟩
  · rw [Run.evalText, hread]
    rintro ⟨t, ht⟩
    cases ht
  · rintro ⟨t, ht⟩
    cases ht
  · obtain ⟨p, hp, hsource⟩ := hfile.readSource (by decide)
    obtain ⟨journal, hload⟩ := Run.load_of_readSource (Run.inner library 1) hp hsource sequencing
    rw [hload, Run.inner, hread]
    rintro ⟨t, ht⟩
    cases ht

end RationalLisp
