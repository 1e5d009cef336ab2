import RationalLisp.CommandLine
import RationalLisp.Proofs.EvalFailures
import RationalLisp.Proofs.StackDiscipline

/-!
# The terminal

A terminal answers line after line, with a value or with an error. It stops early only where a
failure of evaluation is not reported, where a value cannot be shown, or where the answer holds a
surrogate, which the output does not take. The same holds of a program that is run from the command
line, but for its error stream, which takes everything.

An interrupt is one that is typed at the prompt. The output is taken to be UTF-8, and devices that
fail and memory that runs out are not considered.
-/

namespace RationalLisp

/-! ### Reports -/

theorem Failure.Escapes.report? {failure : Failure} (h : failure.Escapes) :
    failure.report? = none := by
  cases h <;> rfl

/-- A failure of evaluation is reported in an error line, or escapes. -/
theorem Failure.Arises.report?_cases {failure : Failure} (h : failure.Arises) :
    (∃ message : Text, failure.report? =
        some (("error: " : Text) ++ message ++ ("\n" : Text))) ∨ failure.Escapes := by
  cases h with
  | error e => exact .inl ⟨e.message, rfl⟩
  | outOfDepth => exact .inl ⟨"maximum recursion depth exceeded", rfl⟩
  | escapes h => exact .inr h

theorem Text.encodable_append {t u : Text} : (t ++ u).Encodable ↔ t.Encodable ∧ u.Encodable :=
  List.forall_mem_append

/-- The end of a line is of no account. -/
theorem Text.encodable_line {t : Text} : (t ++ ("\n" : Text)).Encodable ↔ t.Encodable := by
  rw [encodable_append]
  exact and_iff_left (by decide)

/-- A report can be printed if its message can. -/
theorem Text.encodable_report {message : Text} :
    (("error: " : Text) ++ message ++ ("\n" : Text)).Encodable ↔ message.Encodable := by
  rw [encodable_line, encodable_append]
  exact and_iff_right (by decide)

namespace Store

/-- The store after a text has been printed. -/
def printed (s : Store) (t : Text) : Store := { s with output := s.output.write t }

/-- The store after a text has been written to the error stream. -/
def complained (s : Store) (t : Text) : Store :=
  { s with journal := { s.journal with errorStream := s.journal.errorStream.write t.spelled } }

end Store

namespace CommandLine

/-- A value is printed as a text: there is room for showing it, and the output takes the text. -/
structure PrintsAs (host : Host) (v : Value) (table : Procedures) (shown : Text) : Prop where
  form : v.show? table = some shown
  room : v.levels ≤ host.depth
  encodable : shown.Encodable

/-- A value cannot be printed: it cannot be shown, or the output does not take what is shown. -/
inductive Unprintable (host : Host) (v : Value) (table : Procedures) : Failure → Prop
  | unshowable {failure : Failure} : v.write table host.depth = .error failure →
      Unprintable host v table failure
  | unencodable {shown : Text} : v.show? table = some shown → v.levels ≤ host.depth →
      ¬ shown.Encodable → Unprintable host v table .unencodable

section Values

variable {host : Host} {v : Value} {s : Store} {shown : Text} {failure : Failure}

theorem display_of_write {r : Except Failure Text} (h : v.write s.procedures host.depth = r) :
    Run.display host.depth v s = Run.ofExcept r s := by
  rw [Run.display_eq, h]

theorem PrintsAs.printValue_eq (h : PrintsAs host v s.procedures shown) :
    printValue host v s = .ok () (s.printed (shown ++ ("\n" : Text))) := by
  have hwrite := Value.write_eq_ok_iff.mpr ⟨h.form, h.room⟩
  refine (Run.bind_of_ok (display_of_write hwrite)).trans ?_
  exact Run.print_of_encodable (Text.encodable_line.mpr h.encodable) s

theorem Unprintable.printValue_eq (h : Unprintable host v s.procedures failure) :
    printValue host v s = .error failure s := by
  cases h with
  | unshowable hwrite => exact Run.bind_of_error (display_of_write hwrite)
  | unencodable hshow hroom hnot =>
    have hwrite := Value.write_eq_ok_iff.mpr ⟨hshow, hroom⟩
    refine (Run.bind_of_ok (display_of_write hwrite)).trans ?_
    rw [Run.print_of_not_encodable fun h => hnot (Text.encodable_line.mp h)]
    rfl

theorem printsAs_or_unprintable (host : Host) (v : Value) (table : Procedures) :
    (∃ shown, PrintsAs host v table shown) ∨ ∃ failure, Unprintable host v table failure := by
  cases hwrite : v.write table host.depth with
  | error failure => exact .inr ⟨failure, .unshowable hwrite⟩
  | ok shown =>
    obtain ⟨hshow, hroom⟩ := Value.write_eq_ok_iff.mp hwrite
    by_cases hencodable : shown.Encodable
    · exact .inl ⟨shown, hshow, hroom, hencodable⟩
    · exact .inr ⟨_, .unencodable hshow hroom hencodable⟩

end Values

/-- Running the text fails in a way that nothing reports, or its value is to be printed and cannot
be. -/
inductive Breaks (host : Host) (source : Text) (print : Bool) (s : Store) :
    Failure → Store → Prop
  | failed {failure : Failure} {t : Store} : Session.evalText host source s = .error failure t →
      failure.Escapes → Breaks host source print s failure t
  | unprintable {v : Value} {failure : Failure} {t : Store} : print = true →
      Session.evalText host source s = .ok v t → Unprintable host v t.procedures failure →
      Breaks host source print s failure t

/-! ### Programs -/

/-- Running the text gives a value, which is printed if that is asked for, or an error, which is
reported. -/
inductive Performs (host : Host) (source : Text) (print : Bool) (s : Store) : Bool → Store → Prop
  | silent {v : Value} {t : Store} : print = false → Session.evalText host source s = .ok v t →
      Performs host source print s true t
  | printed {v : Value} {t : Store} {shown : Text} : print = true →
      Session.evalText host source s = .ok v t → PrintsAs host v t.procedures shown →
      Performs host source print s true (t.printed (shown ++ ("\n" : Text)))
  | error {failure : Failure} {t : Store} {message : Text} :
      Session.evalText host source s = .error failure t →
      failure.report? = some (("error: " : Text) ++ message ++ ("\n" : Text)) →
      Performs host source print s false
        (t.complained (("error: " : Text) ++ message ++ ("\n" : Text)))

variable {host : Host} {s t : Store} {failure : Failure}

theorem Performs.runProgram_eq {source : Text} {print good : Bool}
    (h : Performs host source print s good t) : runProgram host source print s = .ok good t := by
  cases h with
  | silent hprint heval =>
    rw [runProgram, heval, hprint]
    rfl
  | printed hprint heval hshow =>
    rw [runProgram, heval, hprint]
    exact Run.bind_of_ok hshow.printValue_eq
  | error heval hreport =>
    rw [runProgram, heval]
    dsimp only
    rw [hreport]
    rfl

theorem Breaks.runProgram_eq {source : Text} {print : Bool}
    (h : Breaks host source print s failure t) :
    runProgram host source print s = .error failure t := by
  cases h with
  | failed heval hescapes =>
    rw [runProgram, heval]
    dsimp only
    rw [hescapes.report?]
  | unprintable hprint heval hshow =>
    rw [runProgram, heval, hprint]
    exact Run.bind_of_error hshow.printValue_eq

theorem performs_or_breaks (host : Host) (source : Text) (print : Bool) (s : Store) :
    (∃ good t, Performs host source print s good t) ∨
      ∃ failure t, Breaks host source print s failure t := by
  cases heval : Session.evalText host source s with
  | ok v t =>
    cases hprint : print with
    | false => exact .inl ⟨true, t, .silent rfl heval⟩
    | true =>
      obtain ⟨shown, hshow⟩ | ⟨failure, hshow⟩ := printsAs_or_unprintable host v t.procedures
      · exact .inl ⟨true, _, .printed rfl heval hshow⟩
      · exact .inr ⟨failure, t, .unprintable rfl heval hshow⟩
  | error failure t =>
    obtain ⟨message, hreport⟩ | hescapes :=
      (Run.tame_evalText host host.depth source s failure t heval).report?_cases
    · exact .inl ⟨false, _, .error heval hreport⟩
    · exact .inr ⟨failure, t, .failed heval hescapes⟩

theorem runProgram_eq_ok_iff {source : Text} {print good : Bool} :
    runProgram host source print s = .ok good t ↔ Performs host source print s good t := by
  refine ⟨fun h => ?_, Performs.runProgram_eq⟩
  obtain ⟨good', u, hperforms⟩ | ⟨failure, u, hbreaks⟩ := performs_or_breaks host source print s
  · rw [hperforms.runProgram_eq] at h
    cases h
    exact hperforms
  · rw [hbreaks.runProgram_eq] at h
    exact nomatch h

theorem runProgram_eq_error_iff {source : Text} {print : Bool} :
    runProgram host source print s = .error failure t ↔
      Breaks host source print s failure t := by
  refine ⟨fun h => ?_, Breaks.runProgram_eq⟩
  obtain ⟨good, u, hperforms⟩ | ⟨failure', u, hbreaks⟩ := performs_or_breaks host source print s
  · rw [hperforms.runProgram_eq] at h
    exact nomatch h
  · rw [hbreaks.runProgram_eq] at h
    cases h
    exact hbreaks

/-! ### The terminal -/

/-- How a terminal answers what its user does. -/
inductive Answers (host : Host) : Event → Store → Store → Prop
  | interrupt (s : Store) : Answers host .interrupt s (s.printed "\n")
  | blank {line : Text} (s : Store) : line.trim = [] → Answers host (.line line) s s
  | value {line shown : Text} {s t : Store} {v : Value} : line.trim ≠ [] →
      Session.evalText host line s = .ok v t → PrintsAs host v t.procedures shown →
      Answers host (.line line) s (t.printed (shown ++ ("\n" : Text)))
  | error {line message : Text} {s t : Store} {failure : Failure} : line.trim ≠ [] →
      Session.evalText host line s = .error failure t →
      failure.report? = some (("error: " : Text) ++ message ++ ("\n" : Text)) →
      message.Encodable →
      Answers host (.line line) s (t.printed (("error: " : Text) ++ message ++ ("\n" : Text)))

/-- Only a line that is not blank can break the terminal. Errors are printed like values, so their
messages have to be free of surrogates as well. -/
inductive Event.Breaks (host : Host) : Event → Store → Failure → Store → Prop
  | line {line : Text} {s t : Store} {failure : Failure} : line.trim ≠ [] →
      CommandLine.Breaks host line true s failure t → Breaks host (.line line) s failure t
  | unreportable {line message : Text} {s t : Store} {failure : Failure} : line.trim ≠ [] →
      Session.evalText host line s = .error failure t →
      failure.report? = some (("error: " : Text) ++ message ++ ("\n" : Text)) →
      ¬ message.Encodable → Breaks host (.line line) s .unencodable t

variable {event : Event} {events : List Event}

theorem replLine_eq {line : Text} (h : line.trim ≠ []) (s : Store) :
    replLine host line s = match Session.evalText host line s with
      | .ok v s => printValue host v s
      | .error failure s =>
        match failure.report? with
        | some report => Run.print report s
        | none => .error failure s :=
  congrFun (if_neg h) s

theorem Answers.replEvent_eq (h : Answers host event s t) : replEvent host event s = .ok () t := by
  cases h with
  | interrupt => rfl
  | blank _ hblank => exact congrFun (if_pos hblank) s
  | value hline heval hshow =>
    rw [replEvent, replLine_eq hline, heval]
    exact hshow.printValue_eq
  | error hline heval hreport hencodable =>
    rw [replEvent, replLine_eq hline, heval]
    dsimp only
    rw [hreport]
    exact Run.print_of_encodable (Text.encodable_report.mpr hencodable) _

theorem Event.Breaks.replEvent_eq (h : event.Breaks host s failure t) :
    replEvent host event s = .error failure t := by
  cases h with
  | line hline h =>
    rw [replEvent, replLine_eq hline]
    cases h with
    | failed heval hescapes =>
      rw [heval]
      dsimp only
      rw [hescapes.report?]
    | unprintable _ heval hshow =>
      rw [heval]
      exact hshow.printValue_eq
  | unreportable hline heval hreport hnot =>
    rw [replEvent, replLine_eq hline, heval]
    dsimp only
    rw [hreport]
    dsimp only
    rw [Run.print_of_not_encodable fun h => hnot (Text.encodable_report.mp h)]
    rfl

theorem answers_or_breaks (host : Host) (event : Event) (s : Store) :
    (∃ t, Answers host event s t) ∨ ∃ failure t, event.Breaks host s failure t := by
  cases event with
  | interrupt => exact .inl ⟨_, .interrupt s⟩
  | line line =>
    by_cases hline : line.trim = []
    · exact .inl ⟨s, .blank s hline⟩
    obtain ⟨good, t, h⟩ | ⟨failure, t, h⟩ := performs_or_breaks host line true s
    · cases h with
      | silent hprint _ => exact nomatch hprint
      | printed _ heval hshow => exact .inl ⟨_, .value hline heval hshow⟩
      | @error failure t message heval hreport =>
        by_cases hencodable : message.Encodable
        · exact .inl ⟨_, .error hline heval hreport hencodable⟩
        · exact .inr ⟨_, t, .unreportable hline heval hreport hencodable⟩
    · exact .inr ⟨failure, t, .line hline h⟩

/-- The terminal has asked for each of these events and answered it. -/
inductive Dialogue (host : Host) : List Event → Store → Store → Prop
  | nil (s : Store) : Dialogue host [] s s
  | cons {event : Event} {rest : List Event} {s t u : Store} :
      Answers host event (s.printed prompt) t → Dialogue host rest t u →
      Dialogue host (event :: rest) s u

theorem repl_cons_of_answers (h : Answers host event (s.printed prompt) t) :
    repl host (event :: events) s = repl host events t := by
  have hprompt : Run.print prompt s = .ok () (s.printed prompt) := rfl
  rw [repl, Run.bind_of_ok hprompt, Run.bind_of_ok h.replEvent_eq]

theorem repl_cons_of_breaks (h : event.Breaks host (s.printed prompt) failure t) :
    repl host (event :: events) s = .error failure t := by
  have hprompt : Run.print prompt s = .ok () (s.printed prompt) := rfl
  rw [repl, Run.bind_of_ok hprompt, Run.bind_of_error h.replEvent_eq]

/-- What has been answered does not matter to what follows. -/
theorem Dialogue.repl_append (h : Dialogue host events s t) (others : List Event) :
    repl host (events ++ others) s = repl host others t := by
  induction h with
  | nil s => rfl
  | cons hanswers _ ih => rw [List.cons_append, repl_cons_of_answers hanswers, ih]

/-- When the user is done, the terminal leaves an empty prompt. -/
theorem Dialogue.repl_eq (h : Dialogue host events s t) :
    repl host events s = .ok () ((t.printed prompt).printed "\n") := by
  have hdone := h.repl_append []
  rw [List.append_nil] at hdone
  exact hdone

/-- A terminal answers all events, or those before one that breaks it. -/
theorem dialogue_or_breaks (host : Host) (events : List Event) (s : Store) :
    (∃ t, Dialogue host events s t) ∨
      ∃ before event after u failure t, events = before ++ event :: after ∧
        Dialogue host before s u ∧ event.Breaks host (u.printed prompt) failure t := by
  induction events generalizing s with
  | nil => exact .inl ⟨s, .nil s⟩
  | cons event events ih =>
    obtain ⟨t, hanswers⟩ | ⟨failure, t, hbreaks⟩ := answers_or_breaks host event (s.printed prompt)
    · obtain ⟨u, hrest⟩ | ⟨before, event', after, u, failure, v, rfl, hbefore, hbreaks⟩ := ih t
      · exact .inl ⟨u, .cons hanswers hrest⟩
      · exact .inr ⟨event :: before, event', after, u, failure, v, rfl, .cons hanswers hbefore,
          hbreaks⟩
    · exact .inr ⟨[], event, events, s, failure, t, rfl, .nil s, hbreaks⟩

theorem repl_eq_ok_iff :
    repl host events s = .ok () t ↔
      ∃ u, Dialogue host events s u ∧ t = (u.printed prompt).printed "\n" := by
  constructor
  · intro h
    obtain ⟨u, hall⟩ | ⟨before, event, after, u, failure, v, rfl, hbefore, hbreaks⟩ :=
      dialogue_or_breaks host events s
    · rw [hall.repl_eq] at h
      cases h
      exact ⟨u, hall, rfl⟩
    · rw [hbefore.repl_append, repl_cons_of_breaks hbreaks] at h
      exact nomatch h
  · rintro ⟨u, hall, rfl⟩
    exact hall.repl_eq

theorem repl_eq_error_iff :
    repl host events s = .error failure t ↔
      ∃ before event after u, events = before ++ event :: after ∧ Dialogue host before s u ∧
        event.Breaks host (u.printed prompt) failure t := by
  constructor
  · intro h
    obtain ⟨u, hall⟩ | ⟨before, event, after, u, failure', v, rfl, hbefore, hbreaks⟩ :=
      dialogue_or_breaks host events s
    · rw [hall.repl_eq] at h
      exact nomatch h
    · rw [hbefore.repl_append, repl_cons_of_breaks hbreaks] at h
      cases h
      exact ⟨before, event, after, u, rfl, hbefore, hbreaks⟩
  · rintro ⟨before, event, after, u, rfl, hbefore, hbreaks⟩
    rw [hbefore.repl_append, repl_cons_of_breaks hbreaks]

end CommandLine

open CommandLine

/-- A terminal comes to the end of its events exactly if it answers all of them, and otherwise
breaks at the first line that it cannot answer. A program from the command line is performed, or
breaks in the same way. -/
theorem terminal_breaks_only_unreported (host : Host) (s : Store) :
    (∀ events t, repl host events s = .ok () t ↔
      ∃ u, Dialogue host events s u ∧ t = (u.printed prompt).printed "\n") ∧
    (∀ events failure t, repl host events s = .error failure t ↔
      ∃ before event after u, events = before ++ event :: after ∧ Dialogue host before s u ∧
        event.Breaks host (u.printed prompt) failure t) ∧
    (∀ source print good t, runProgram host source print s = .ok good t ↔
      Performs host source print s good t) ∧
    (∀ source print failure t, runProgram host source print s = .error failure t ↔
      Breaks host source print s failure t) :=
  ⟨fun _ _ => repl_eq_ok_iff, fun _ _ _ => repl_eq_error_iff,
    fun _ _ _ _ => runProgram_eq_ok_iff, fun _ _ _ _ => runProgram_eq_error_iff⟩

/-- Without a prelude a session starts, unless its limit is too high. -/
theorem Session.exists_start {host : Host}
    (h : ¬ Host.greatestRecursionLimit < host.recursionLimit) (journal : Journal) :
    ∃ s, Session.start host false (.initial journal) = .ok () s := by
  obtain ⟨s, hregister, -⟩ := @Run.register_ok (fun _ => True) (fun _ _ _ _ _ => trivial)
    (fun _ _ _ => trivial) journal trivial
  refine ⟨s, ?_⟩
  rw [start_of_register hregister, opening, if_neg h]
  rfl

namespace Terminal

/-- The least whole number with too many digits to be written. -/
def longNumber : Value := .num (Nat.pow 10 4300 : Nat)

theorem evalText_longNumber (s : Store) :
    Session.evalText Host.bare "1e4300" s = .ok longNumber s := by
  have hread : Program.ofText 5000 "1e4300" = ⟨[longNumber], none⟩ := by decide +kernel
  have hdepth : Host.bare.depth = 4999 + 1 := rfl
  rw [Session.evalText, Run.evalText, hdepth, hread]
  rfl

theorem write_longNumber (table : Procedures) :
    longNumber.write table Host.bare.depth = .error .tooManyDigits := by
  have hlong : ¬ longNumber.Printable := by decide +kernel
  rw [Value.write_of_levels_le (Nat.zero_le _), Value.show?, if_neg hlong]

theorem breaks_longNumber (s : Store) :
    CommandLine.Event.Breaks Host.bare (.line "1e4300") s .tooManyDigits s :=
  .line (by decide) (.unprintable rfl (evalText_longNumber s) (.unshowable (write_longNumber _)))

end Terminal

open Terminal

/-- Not every line is answered: a number that can be read and not written breaks the terminal, and
the line after it is never asked for. -/
theorem terminal_may_break :
    ¬ ∀ (host : Host) (prelude : Bool) (s : Store) (events : List CommandLine.Event),
      Session.start host prelude (.initial .empty) = .ok () s →
        ∃ t, repl host events s = .ok () t := by
  intro h
  obtain ⟨s, hstart⟩ := @Session.exists_start Host.bare (by decide) .empty
  obtain ⟨t, ht⟩ := h Host.bare false s [.line "1e4300", .line "1"] hstart
  rw [repl_cons_of_breaks (breaks_longNumber _)] at ht
  exact nomatch ht

end RationalLisp
