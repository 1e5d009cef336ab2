import RationalLisp.Proofs.PrintedSource
import RationalLisp.Proofs.StringLiterals

/-!
# Code through text

A program can print a piece of code, read the text again and evaluate what has been read. For code
that is read back as itself this is the same as evaluating it at once: printing, reading and quoting
leave the store alone, and the code runs on the stack on which it would have run without the detour.
-/

namespace RationalLisp

/-- The expression that prints a piece of code, reads the text and evaluates what has been read. -/
def Value.throughText (e : Value) : Value :=
  .call "evaluate" [.call "read" [.call "to-str" [e.quoted]]]

/-- Readable code is read from its printed form. -/
theorem Value.Readable.ofSource_eq {e : Value} {table : Procedures} {space : Nat} {t : Text}
    (h : e.Readable) (hwrite : e.write table space = .ok t) {room : Nat} (hroom : e.nesting ≤ room) :
    ofSource room t = .ok e := by
  obtain ⟨hprintable, rfl⟩ := printable_of_write hwrite
  have hplain : e.Plain := (plain_iff e).mpr ⟨h.procs, hprintable, h.names⟩
  rw [hplain.ofSource_text table hroom]
  exact (reread_eq_self_iff e).mpr h.points

namespace Run

variable {host : Host} {s t : Store} {e : Value} {text : Text}

/-- Printing gives the string of the printed form. -/
theorem evaluates_toStr (hname : s.Provides "to-str" (.builtin .toStr))
    {operand : Value} (hoperand : Evaluates host operand s (.ok e t))
    {space : Nat} (hwrite : e.write t.procedures space = .ok text) :
    Evaluates host (.call "to-str" [operand]) s (.ok (.ofText text) t) := by
  have hdisplay := ends_display_of_write hwrite
  exact evaluates_builtin hname rfl (evaluatesAll_one hoperand)
    (hdisplay.bind (ends_of_eq fun _ => rfl))

/-- Reading gives the expression that the text holds, if there is room for it. -/
theorem evaluates_read (hname : s.Provides "read" (.form .read)) {operand : Value}
    (hoperand : Evaluates host operand s (.ok (.ofText text) t)) {least : Nat}
    (hread : ∀ room, least ≤ room → Value.ofSource room text = .ok e) :
    Evaluates host (.call "read" [operand]) s (.ok e t) := by
  refine evaluates_call hname rfl rfl (evaluatesAll_one hoperand) ⟨least, fun depth hdepth => ?_⟩
  have hstring : Form.read.string (.ofText text) = pure text := by
    simp [Form.string]
  change (Form.read.string (.ofText text) >>= fun found =>
    ofExcept ((Value.ofSource depth found).mapError ReadFailure.toFailure)) t = .ok e t
  rw [hstring, pure_bind, hread depth hdepth]
  rfl

/-- Evaluating a value as code. -/
theorem evaluates_evaluate {r : Result Value} (hname : s.Provides "evaluate" (.form .evaluate))
    {operand : Value} (hoperand : Evaluates host operand s (.ok e t)) (he : Evaluates host e t r) :
    Evaluates host (.call "evaluate" [operand]) s r :=
  evaluates_call hname rfl rfl (evaluatesAll_one hoperand) he

/-- The detour through text ends as the code itself does. -/
theorem evaluates_throughText {r : Result Value} (hreadable : e.Readable)
    {space : Nat} (hwrite : e.write s.procedures space = .ok text)
    (hevaluate : s.Provides "evaluate" (.form .evaluate))
    (hread : s.Provides "read" (.form .read)) (htoStr : s.Provides "to-str" (.builtin .toStr))
    (hquote : s.Provides "quote" (.form .quote)) (he : Evaluates host e s r) :
    Evaluates host e.throughText s r := by
  have hquoted : Evaluates host e.quoted s (.ok e s) := evaluates_quoted hquote e
  have hprinted := evaluates_toStr htoStr hquoted hwrite
  have hback := evaluates_read hread hprinted fun room => hreadable.ofSource_eq hwrite
  exact evaluates_evaluate hevaluate hback he

end Run

/-- Code survives the way through text: to print readable code, read the text and evaluate what has
been read is to evaluate the code, with the same value or failure and the same store after it, as
long as neither run is cut off. -/
theorem code_survives_text (host : Host) (s : Store) (e : Value) (t : Text)
    (space depth depth' : Nat) (hreadable : e.Readable)
    (hwrite : e.write s.procedures space = .ok t)
    (hevaluate : s.Provides "evaluate" (.form .evaluate))
    (hread : s.Provides "read" (.form .read)) (htoStr : s.Provides "to-str" (.builtin .toStr))
    (hquote : s.Provides "quote" (.form .quote))
    (hdirect : ¬ Result.CutOff (Run.eval host depth e s))
    (hdetour : ¬ Result.CutOff (Run.eval host depth' e.throughText s)) :
    Run.eval host depth' e.throughText s = Run.eval host depth e s := by
  have hends : Run.Evaluates host e.throughText s (Run.eval host depth e s) :=
    Run.evaluates_throughText hreadable hwrite hevaluate hread htoStr hquote
      (Run.evaluates_of_not_cutOff hdirect)
  exact hends.evaluatesTo.uncut depth' hdetour

namespace CodeAsText

/-- The primitives of a store in which code can be printed, read, evaluated and put in sequence. -/
def primitives : List Primitive :=
  [.form .evaluate, .form .read, .builtin .toStr, .form .quote, .form .sequence, .form .bindInner,
    .builtin .print]

/-- A store in which the primitives have their names. -/
def provided : Store where
  frames := #[primitives.mapIdx fun id p => (p.name, .proc id)]
  procedures := (primitives.map .ofPrimitive).toArray
  stack := [0]
  pending := []
  output := .empty
  journal := .empty

/-- Code that binds a name, prints a text and fails. -/
def effects : Value :=
  .call "begin" [.call "let!" [.quoted (.atom "x"), .num 1], .call "print" [.quoted (.ofText "a")],
    .atom "y"]

/-- The store after that. -/
def affected : Store :=
  { provided.bindAt 0 "x" (.num 1) with output := provided.output.write "a" }

theorem eval_effects : Run.eval .bare 5 effects provided =
    .error (.error (.unboundName "y")) affected := rfl

theorem readable_effects : effects.Readable where
  procs := rfl
  names := by
    have hname : ∀ name ∈ effects.atoms, name.all CodePoint.isSymbol = true ∧ name ≠ [] ∧
        name ≠ "#t" ∧ name ≠ "#f" ∧ Numeral.ofText? name = none := by decide +kernel
    intro name hmem
    obtain ⟨hall, hne, htrue, hfalse, hnumeral⟩ := hname name hmem
    exact ⟨.of_all hne hall, htrue, hfalse, hnumeral⟩
  points := by
    simp [effects, Value.call, Value.ofList, Value.chain, Value.quoted, Value.ofText,
      Value.ofCodePoint, Value.PointFree, Text.ofString, CodePoint.ofChar_inj]

end CodeAsText

open CodeAsText

/-- Code that binds a name, prints a text and then fails does so through text as well. -/
theorem code_survives_text_effects :
    effects.Readable ∧
    effects.write provided.procedures 5 = .ok (effects.text provided.procedures) ∧
    ∃ depth, Run.eval .bare depth effects.throughText provided =
      .error (.error (.unboundName "y")) affected := by
  have hwrite : effects.write provided.procedures 5 = .ok (effects.text provided.procedures) :=
    Value.write_eq_ok_iff.mpr
      ⟨Value.show?_eq_some_iff.mpr ⟨by decide +kernel, rfl⟩, by decide +kernel⟩
  have huncut : ¬ Result.CutOff (Run.eval .bare 5 effects provided) := by
    rw [eval_effects]
    rintro ⟨t, ht⟩
    cases ht
  have hevaluate : provided.Provides "evaluate" (.form .evaluate) := ⟨0, rfl, rfl⟩
  have hread : provided.Provides "read" (.form .read) := ⟨1, rfl, rfl⟩
  have htoStr : provided.Provides "to-str" (.builtin .toStr) := ⟨2, rfl, rfl⟩
  have hquote : provided.Provides "quote" (.form .quote) := ⟨3, rfl, rfl⟩
  obtain ⟨depth, hdepth⟩ := Run.evaluates_throughText readable_effects hwrite hevaluate hread htoStr
    hquote (Run.evaluates_of_not_cutOff huncut)
  have hdetour : ¬ Result.CutOff (Run.eval .bare depth effects.throughText provided) := by
    have heq : Run.eval .bare depth effects.throughText provided =
        Run.eval .bare 5 effects provided := hdepth depth le_rfl
    rwa [heq]
  refine ⟨readable_effects, hwrite, depth, ?_⟩
  rw [code_survives_text .bare provided effects _ 5 5 depth readable_effects hwrite hevaluate hread
    htoStr hquote huncut hdetour, eval_effects]

end RationalLisp
