import RationalLisp.Proofs.ExpressionGrammar
import RationalLisp.Proofs.TokenGrammar
import RationalLisp.Proofs.Trace

/-!
# Programs one after the other

A text that is read to its end leaves nothing open: a new line ends its last symbol or comment, and
no form waits for more tokens. So another text on the next line is read as if it stood alone, and
running both is running the one and then the other.
-/

namespace RationalLisp

/-! ### Tokens -/

namespace Token

open Text

variable {a b : Text}

theorem front_nextLine (b : Text) : front (('\n' : CodePoint) :: b) = front b := by
  have hblank : (CodePoint.ofChar '\n').isBlank = true := by decide
  exact front_congr (by rw [dropGap, if_pos hblank])

/-- A gap at the end of a text goes on to the next line. -/
theorem front_append_of_done (h : front a = .done) :
    front (a ++ ('\n' : CodePoint) :: b) = front b := by
  have hline : EndsLine [] ↔ EndsLine (('\n' : CodePoint) :: b) :=
    iff_of_true (.inl rfl) (.inr ⟨b, rfl⟩)
  have hgap := (front_eq_done_iff.mp h).congr hline
  rw [front_congr (dropGap_gap hgap), front_nextLine]

/-- A token does not go on to the next line. -/
theorem front_append_of_token {t : Token} {rest : Text} (h : front a = .token t rest) :
    front (a ++ ('\n' : CodePoint) :: b) = .token t (rest ++ ('\n' : CodePoint) :: b) := by
  obtain ⟨hform, hrest, gap, rfl, hgap⟩ := front_eq_token_iff.mp h
  refine front_eq_token_iff.mpr ⟨hform, fun hopen => ?_, gap, by simp, hgap.congr ?_⟩
  · cases rest with
    | nil => exact endsSymbol_cons (by decide) b
    | cons c rest => exact endsSymbol_cons (hrest hopen c rest rfl) _
  · exact iff_of_false (hform.not_endsLine _) (hform.not_endsLine _)

end Token

namespace Tokens

theorem scanOnto_append (before seen : List Token) (source : Text) :
    scanOnto (seen ++ before) source =
      ⟨before.reverse ++ (scanOnto seen source).tokens, (scanOnto seen source).terminated⟩ := by
  fun_induction scanOnto seen source with
  | case1 seen source h => rw [scanOnto_of_done h, List.reverse_append]
  | case2 seen source h => rw [scanOnto_of_unterminated h, List.reverse_append]
  | case3 seen source t rest h ih => rw [scanOnto_of_token h, ← List.cons_append, ih]

/-- After a text that is scanned to its end, the next line is scanned as if it stood alone. -/
theorem scanOnto_nextLine {seen : List Token} {a : Text}
    (h : (scanOnto seen a).terminated = true) (b : Text) :
    scanOnto seen (a ++ ('\n' : CodePoint) :: b) =
      ⟨(scanOnto seen a).tokens ++ (ofText b).tokens, (ofText b).terminated⟩ := by
  fun_induction scanOnto seen a with
  | case1 seen a hfront =>
    rw [scanOnto_congr (Token.front_append_of_done hfront)]
    exact scanOnto_append seen [] b
  | case2 seen a hfront => cases h
  | case3 seen a t rest hfront ih =>
    rw [scanOnto_of_token (Token.front_append_of_token hfront), ih h]

end Tokens

/-! ### Expressions -/

namespace Program

variable {terminated : Bool} {room : Nat}

theorem readOnto_append (before seen : List Value) (tokens : List Token) :
    readOnto terminated room (seen ++ before) tokens =
      ⟨before.reverse ++ (readOnto terminated room seen tokens).exprs,
        (readOnto terminated room seen tokens).fault⟩ := by
  fun_induction readOnto terminated room seen tokens with
  | case1 seen tokens h => rw [readOnto_of_finished h, List.reverse_append]
  | case2 seen tokens failure rest h => rw [readOnto_of_failed h, List.reverse_append]
  | case3 seen tokens v rest h ih => rw [readOnto_of_expression h, ← List.cons_append, ih]

/-- Tokens that are read to their end have been scanned to the end of the text. What follows them is
read as if it stood alone. -/
theorem readOnto_of_faultless {seen : List Value} {tokens : List Token}
    (h : (readOnto terminated room seen tokens).fault = none) :
    terminated = true ∧ ∀ terminated' others,
      readOnto terminated' room seen (tokens ++ others) =
        ⟨(readOnto terminated room seen tokens).exprs ++
          (readOnto terminated' room [] others).exprs,
          (readOnto terminated' room [] others).fault⟩ := by
  fun_induction readOnto terminated room seen tokens with
  | case1 seen tokens hread =>
    obtain ⟨rfl, hterminated⟩ := Reader.readFrom_eq_finished_iff.mp hread
    exact ⟨hterminated, fun terminated' others => readOnto_append seen [] others⟩
  | case2 seen tokens failure rest hread => cases h
  | case3 seen tokens v rest hread ih =>
    obtain ⟨hterminated, hothers⟩ := ih h
    refine ⟨hterminated, fun terminated' others => ?_⟩
    -- whether the text was scanned to its end does not matter to a complete expression
    obtain ⟨taken, rfl, hderives⟩ := Reader.readFrom_eq_expression_iff.mp hread
    have hread' : Reader.readFrom terminated' room (.expression []) (taken ++ rest ++ others) =
        .expression v (rest ++ others) :=
      Reader.readFrom_eq_expression_iff.mpr ⟨taken, by simp, hderives⟩
    rw [readOnto_of_expression hread', hothers]

/-- A text on the line after a faultless one is read as if it stood alone. -/
theorem ofText_nextLine {a : Text} (ha : (ofText room a).fault = none) (b : Text) :
    ofText room (a ++ ('\n' : CodePoint) :: b) =
      ⟨(ofText room a).exprs ++ (ofText room b).exprs, (ofText room b).fault⟩ := by
  obtain ⟨hterminated, hothers⟩ := readOnto_of_faultless ha
  have htokens := Tokens.scanOnto_nextLine hterminated b
  simp only [ofText, Tokens.ofText] at hothers ⊢
  rw [htokens]
  exact hothers _ _

end Program

/-! ### Runs -/

namespace Run

theorem sequence_append (eval : Value → Run Value) (last : Value) (xs ys : List Value) :
    sequence eval last (xs ++ ys) = sequence eval last xs >>= fun v => sequence eval v ys := by
  induction xs generalizing last with
  | nil => simp [sequence]
  | cons x xs ih =>
    simp only [List.cons_append, sequence, bind_assoc]
    exact bind_congr fun v => ih v

/-- The value before the first expression matters only if there is none. -/
theorem sequence_eq_ite (eval : Value → Run Value) (last : Value) (xs : List Value) :
    sequence eval last xs =
      sequence eval .null xs >>= fun w => pure (if xs = [] then last else w) := by
  cases xs with
  | nil => simp [sequence]
  | cons x xs => simp [sequence]

/-- A program in two parts is run part by part. -/
theorem program_append (eval : Value → Run Value) (xs ys : List Value)
    (fault : Option ReadFailure) :
    program eval ⟨xs ++ ys, fault⟩ = (do
      let v ← program eval ⟨xs, none⟩
      let w ← program eval ⟨ys, fault⟩
      pure (if ys = [] then v else w)) := by
  simp only [program, sequence_append, bind_assoc, pure_bind]
  refine bind_congr fun v => ?_
  rw [sequence_eq_ite eval v ys, bind_assoc]
  refine bind_congr fun w => ?_
  cases fault with
  | none => simp
  | some failure => rfl

end Run

/-- The text on the line after a faultless one is read and run as if it stood alone, and everything
before its first fault has been run when it fails. -/
theorem programs_concatenate (host : Host) (depth : Nat) (a b : Text)
    (ha : (Program.ofText depth a).fault = none) :
    Program.ofText depth (a ++ ('\n' : CodePoint) :: b) =
      ⟨(Program.ofText depth a).exprs ++ (Program.ofText depth b).exprs,
        (Program.ofText depth b).fault⟩ ∧
    Run.evalText host depth (a ++ ('\n' : CodePoint) :: b) = (do
      let v ← Run.evalText host depth a
      let w ← Run.evalText host depth b
      pure (if (Program.ofText depth b).exprs = [] then v else w)) ∧
    ∀ (s t : Store) (v : Value) (failure : ReadFailure),
      (Program.ofText depth b).fault = some failure →
      Run.sequence (Run.eval host depth) .null
        ((Program.ofText depth a).exprs ++ (Program.ofText depth b).exprs) s = .ok v t →
      Run.evalText host depth (a ++ ('\n' : CodePoint) :: b) s = .error failure.toFailure t := by
  have hread := Program.ofText_nextLine ha b
  refine ⟨hread, ?_, fun s t v failure hfault hrun => ?_⟩
  · have heval : Run.evalText host depth a =
        Run.program (Run.eval host depth) ⟨(Program.ofText depth a).exprs, none⟩ := by
      rw [← ha, Run.evalText]
    rw [heval, Run.evalText, hread, Run.program_append]
    rfl
  · rw [Run.evalText, hread, Run.program, Run.bind_of_ok hrun, hfault]
    rfl

/-- The comment ends with its line, and what comes before the open bracket is run. -/
theorem programs_concatenate_comment :
    (Program.ofText 1 "1 ; (").fault = none ∧
    Program.ofText 1 "1 ; (\n2 (" = ⟨[.num 1, .num 2], some (.malformed .unmatchedOpen)⟩ ∧
    ∀ s : Store, Run.evalText .bare 1 "1 ; (\n2 (" s =
      .error (.error (.malformed .unmatchedOpen)) s := by
  have ha : Program.ofText 1 "1 ; (" = ⟨[.num 1], none⟩ := by decide +kernel
  have hb : Program.ofText 1 "2 (" = ⟨[.num 2], some (.malformed .unmatchedOpen)⟩ := by
    decide +kernel
  have hfault : (Program.ofText 1 "1 ; (").fault = none := by rw [ha]
  obtain ⟨hread, -, hrun⟩ :=
    programs_concatenate .bare 1 "1 ; (" "2 (" hfault
  rw [ha, hb] at hread hrun
  exact ⟨hfault, hread, fun s => hrun s s (.num 2) _ rfl rfl⟩

end RationalLisp
