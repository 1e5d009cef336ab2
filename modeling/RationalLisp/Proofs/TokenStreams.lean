import RationalLisp.Proofs.Descent
import RationalLisp.Session

/-!
# Steps on a token stream

A stream may be looked at, asked for a token, or asked for an expression, in any order and also
after a failure. No step drops, repeats or moves a token: what has been taken, what is in the
look-ahead and what is unread are together the tokens of the source text. Looking changes no later
answer. Only where forms are nested too deep is the rest of the source text lost.
-/

namespace RationalLisp

namespace TokenStream

/-- What can be asked of a stream. -/
inductive Step where
  | peek
  | advance
  | expression
  deriving DecidableEq

/-- What a stream answers: a token or an expression, or none at its end, or a failure. -/
inductive Answer where
  | token (next : Except ReadFailure (Option Token))
  | expression (v : Except ReadFailure (Option Value))
  deriving DecidableEq

variable {room : Nat} {s u : TokenStream}

/-- The answer to a step, and the stream after it. -/
def Step.run (room : Nat) : Step → TokenStream → Answer × TokenStream
  | .peek, s => (.token s.peek.1, s.peek.2)
  | .advance, s => (.token s.advance.1, s.advance.2)
  | .expression, s => (.expression (s.next room).1, (s.next room).2)

/-- The steps with their answers. -/
def transcript (room : Nat) : List Step → TokenStream → List (Step × Answer)
  | [], _ => []
  | step :: steps, s => (step, (step.run room s).1) :: transcript room steps (step.run room s).2

/-- The stream after some steps. -/
def after (room : Nat) (steps : List Step) (s : TokenStream) : TokenStream :=
  steps.foldl (fun s step => (step.run room s).2) s

/-! ### Tokens taken -/

/-- The stream after a step and the tokens taken from it, when expressions are read by descent. -/
def Step.tally (room : Nat) (step : Step) (t : Tally) : Tally :=
  match step with
  | .peek => Descent.ending (Descent.look t)
  | .advance => Descent.ending (Descent.take t)
  | .expression => Descent.ending (Descent.expression room t)

/-- The stream after some steps and the tokens taken from it. -/
def tally (room : Nat) (steps : List Step) (t : Tally) : Tally :=
  steps.foldl (fun t step => step.tally room t) t

theorem Step.stream_tally (room : Nat) (step : Step) (t : Tally) :
    (step.tally room t).stream = (step.run room t.stream).2 := by
  cases step with
  | peek => exact congrArg Prod.snd (Descent.onStream_look t)
  | advance => exact congrArg Prod.snd (Descent.onStream_take t)
  | expression => exact congrArg Prod.snd (Descent.onStream_expression room t)

theorem stream_tally (room : Nat) (steps : List Step) (t : Tally) :
    (tally room steps t).stream = after room steps t.stream := by
  induction steps generalizing t with
  | nil => rfl
  | cons step steps ih =>
    have hstep := step.stream_tally room t
    change (tally room steps (step.tally room t)).stream = after room steps _
    rw [ih, hstep]

/-- A step leaves all tokens where they are in the order, unless forms are nested too deep. -/
theorem Step.all_tally (step : Step) (t : Tally)
    (h : (step.run room t.stream).1 ≠ .expression (.error .outOfDepth)) :
    (step.tally room t).all = t.all := by
  cases step with
  | peek => exact Descent.all_look t
  | advance => exact Descent.all_take t
  | expression =>
    obtain ⟨u, hu, -⟩ | hall := Descent.conserves_expression room t
    · refine absurd ?_ h
      rw [run, ← Descent.onStream_expression room t, Descent.onStream, hu]
      rfl
    · exact hall

/-- Steps leave all tokens where they are in the order. -/
theorem all_tally (steps : List Step) (t : Tally)
    (h : ∀ p ∈ transcript room steps t.stream, p.2 ≠ .expression (.error .outOfDepth)) :
    (tally room steps t).all = t.all := by
  induction steps generalizing t with
  | nil => rfl
  | cons step steps ih =>
    obtain ⟨hstep, hsteps⟩ := List.forall_mem_cons.mp h
    rw [← step.stream_tally room t] at hsteps
    exact (ih _ hsteps).trans (step.all_tally t hstep)

/-- Where forms are nested too deep, a step may lose the last of the tokens, and no others. -/
theorem Step.all_tally_prefix (room : Nat) (step : Step) (t : Tally) :
    (step.tally room t).all <+: t.all := by
  cases step with
  | peek => exact (Descent.all_look t).symm ▸ List.prefix_rfl
  | advance => exact (Descent.all_take t).symm ▸ List.prefix_rfl
  | expression =>
    obtain ⟨u, hu, hprefix⟩ | hall := Descent.conserves_expression room t
    · rw [tally, hu]
      exact hprefix
    · exact hall.symm ▸ List.prefix_rfl

theorem all_tally_prefix (room : Nat) (steps : List Step) (t : Tally) :
    (tally room steps t).all <+: t.all := by
  induction steps generalizing t with
  | nil => exact List.prefix_rfl
  | cons step steps ih => exact (ih _).trans (step.all_tally_prefix room t)

/-! ### Looking -/

section Looking

variable (h : s.terminated = true)
include h

theorem peek_eq : s.peek = (.ok s.pending.head?, ⟨s.pending.head?, s.pending.tail, true⟩) := by
  obtain ⟨lookahead, unread, terminated⟩ := s
  subst h
  match lookahead, unread with
  | some _, _ => rfl
  | none, _ :: _ => rfl
  | none, [] => rfl

theorem advance_eq : s.advance = (.ok s.pending.head?, ⟨none, s.pending.tail, true⟩) := by
  obtain ⟨lookahead, unread, terminated⟩ := s
  subst h
  match lookahead, unread with
  | some _, _ => rfl
  | none, _ :: _ => rfl
  | none, [] => rfl

theorem next_eq (room : Nat) : s.next room = next room ⟨none, s.pending, true⟩ := by
  obtain ⟨lookahead, unread, terminated⟩ := s
  change terminated = true at h
  subst h
  cases lookahead with
  | none => rfl
  | some t =>
    have hlooked : pending ⟨some t, unread, true⟩ = t :: unread := rfl
    have hunread : pending ⟨none, t :: unread, true⟩ = t :: unread := rfl
    change next room _ = next room ⟨none, t :: unread, true⟩
    rw [next, next, hlooked, hunread]
    cases hread : Reader.readFrom true room (.expression []) (t :: unread) with
    | finished => exact absurd (Reader.readFrom_eq_finished_iff.mp hread).1 (List.cons_ne_nil _ _)
    | expression v rest => rfl
    | failed failure rest =>
      exact congrArg (Prod.mk _) (Descent.afterFailure_congr rfl failure rest)

theorem terminated_next (room : Nat) : (s.next room).2.terminated = true := by
  rw [next]
  cases Reader.readFrom s.terminated room (.expression []) s.pending with
  | finished => exact h
  | expression v rest => exact h
  | failed failure rest =>
    change (s.afterFailure failure rest).terminated = true
    unfold afterFailure
    split
    · exact h
    · exact h
    · rfl
    · rfl
    · exact h

/-- A step depends on the tokens to come, and not on whether the next one has been looked at. -/
theorem Step.run_eq (step : Step) : step.run room s = step.run room ⟨none, s.pending, true⟩ := by
  cases step with
  | peek => rw [run, run, peek_eq h, peek_eq (s := ⟨none, s.pending, true⟩) rfl]; rfl
  | advance => rw [run, run, advance_eq h, advance_eq (s := ⟨none, s.pending, true⟩) rfl]; rfl
  | expression => rw [run, run, next_eq h]

theorem Step.terminated_run (step : Step) : (step.run room s).2.terminated = true := by
  cases step with
  | peek => rw [run, peek_eq h]
  | advance => rw [run, advance_eq h]
  | expression => exact terminated_next h room

/-- Looking leaves the tokens to come. -/
theorem Step.pending_peek : (Step.peek.run room s).2.pending = s.pending := by
  rw [run, peek_eq h]
  change s.pending.head?.toList ++ s.pending.tail = s.pending
  cases s.pending <;> rfl

theorem transcript_eq (steps : List Step) :
    transcript room steps s = transcript room steps ⟨none, s.pending, true⟩ := by
  cases steps with
  | nil => rfl
  | cons step steps => rw [transcript, transcript, step.run_eq h]

/-- Without the looking, all other answers are the same. -/
theorem filter_transcript (steps : List Step) :
    (transcript room steps s).filter (fun p => p.1 ≠ .peek) =
      transcript room (steps.filter (· ≠ .peek)) s := by
  induction steps generalizing s with
  | nil => rfl
  | cons step steps ih =>
    have hterminated : (step.run room s).2.terminated = true := step.terminated_run h
    have hafter := ih hterminated
    by_cases hpeek : step = .peek
    · subst hpeek
      rw [transcript, List.filter_cons_of_neg (by simp), List.filter_cons_of_neg (by simp), hafter,
        transcript_eq hterminated, Step.pending_peek h, ← transcript_eq h]
    · rw [transcript, List.filter_cons_of_pos (by simpa using hpeek),
        List.filter_cons_of_pos (by simpa using hpeek), transcript, hafter]

end Looking

/-- No step on a stream drops, repeats or moves a token, and looking changes no other answer. The
tokens taken are those that looking and taking, which is all that a stream does, have handed out. -/
theorem streams_keep_tokens (room : Nat) (source : Text)
    (hscan : (Tokens.ofText source).terminated = true) :
    -- all tokens are there, in their order, after steps that run into no limit
    (∀ steps : List Step,
      (∀ p ∈ transcript room steps (ofText source), p.2 ≠ .expression (.error .outOfDepth)) →
      let t := tally room steps ⟨ofText source, []⟩
      t.taken ++ t.stream.lookahead.toList ++ t.stream.unread = (Tokens.ofText source).tokens) ∧
    -- and at a limit only the last of them may be missing
    (∀ steps : List Step,
      let t := tally room steps ⟨ofText source, []⟩
      t.taken ++ t.stream.lookahead.toList ++ t.stream.unread <+: (Tokens.ofText source).tokens) ∧
    -- the look-ahead is a single token
    (∀ steps : List Step, (after room steps (ofText source)).lookahead.toList.length ≤ 1) ∧
    -- steps without those that look
    (∀ steps : List Step,
      (transcript room steps (ofText source)).filter (fun p => p.1 ≠ .peek) =
        transcript room (steps.filter (· ≠ .peek)) (ofText source)) ∧
    -- the tally keeps the stream itself, and does to it what the stream does
    (∀ steps : List Step,
      (tally room steps ⟨ofText source, []⟩).stream = after room steps (ofText source)) ∧
    ∀ t : Tally, Descent.onStream Descent.look t = t.stream.peek ∧
      Descent.onStream Descent.take t = t.stream.advance ∧
      Descent.onStream (Descent.expression room) t = t.stream.next room := by
  refine ⟨fun steps hdepth => ?_, fun steps => ?_, fun steps => ?_,
    fun steps => filter_transcript hscan steps, fun steps => stream_tally room steps _, fun t => ?_⟩
  · intro t
    rw [List.append_assoc]
    exact all_tally steps ⟨ofText source, []⟩ hdepth
  · intro t
    rw [List.append_assoc]
    exact all_tally_prefix room steps ⟨ofText source, []⟩
  · cases (after room steps (ofText source)).lookahead <;> simp
  · exact ⟨Descent.onStream_look t, Descent.onStream_take t, Descent.onStream_expression room t⟩

/-- A failure inside a list leaves a token in the look-ahead, where later steps find it. -/
theorem streams_keep_tokens_after_fault :
    let t := tally 9 [.peek, .expression] ⟨ofText "(a . b c) d", []⟩
    (Tokens.ofText "(a . b c) d").terminated = true ∧
    t.stream = ⟨some (.symbol "c"), [.rparen, .symbol "d"], true⟩ ∧
    t.taken ++ t.stream.lookahead.toList ++ t.stream.unread =
      (Tokens.ofText "(a . b c) d").tokens ∧
    transcript 9 [.expression] (ofText "(a . b c) d") =
      [(.expression, .expression (.error (.malformed .dottedTailNotClosed)))] := by
  have hscan : (Tokens.ofText "(a . b c) d").terminated = true := by decide +kernel
  obtain ⟨hkeeps, -, -, hlooking, -⟩ := streams_keep_tokens 9 "(a . b c) d" hscan
  refine ⟨hscan, by decide +kernel, hkeeps _ (by decide +kernel), ?_⟩
  exact (hlooking [.peek, .expression]).symm.trans (by decide +kernel)

/-! ### Deep nesting -/

theorem scans_brackets (n : Nat) :
    Tokens.Scans (List.replicate n (CodePoint.ofChar '(')) (List.replicate n .lparen) [] := by
  induction n with
  | zero => exact fun _ => rfl
  | succ n ih => exact (Tokens.Scans.lparen _).append ih

/-- An opening bracket is taken before what stands in the brackets is read. -/
theorem form_bracket {afterQuote afterBracket : Descent (Option Value)} {rest taken : List Token}
    (h : s.pending = .lparen :: rest) :
    Descent.form afterQuote afterBracket ⟨s, taken⟩ =
      afterBracket ⟨⟨none, rest, s.terminated⟩, taken ++ [.lparen]⟩ := by
  rw [Descent.form, Descent.bind_of_ok (Descent.look_of_cons h)]
  exact Descent.bind_of_ok Descent.take_of_looked

/-- A list ends as its first item does where that fails. -/
theorem list_of_error {inner : Descent (Option Value)} {rest taken : List Token} {u : Tally}
    {failure : ReadFailure} (h : s.pending = .lparen :: rest)
    (hinner : inner ⟨⟨some .lparen, rest, s.terminated⟩, taken⟩ = .error failure u) :
    Descent.list inner ⟨s, taken⟩ = .error failure u := by
  change Descent.items inner (s.pending.length + 1) [] ⟨s, taken⟩ = _
  rw [Descent.items, Descent.bind_of_ok (Descent.look_of_cons h)]
  dsimp only
  rw [if_neg (by simp)]
  exact Descent.bind_of_error hinner

/-- Where brackets are nested too deep, as many of them are taken as there is room for, and one
more. The others are lost. -/
theorem expression_brackets (room n : Nat) {s : TokenStream} (taken : List Token)
    (h : s.pending = List.replicate (room + 1 + n) .lparen) :
    Descent.expression room ⟨s, taken⟩ =
      .error .outOfDepth ⟨.exhausted, taken ++ List.replicate (room + 1) .lparen⟩ := by
  induction room generalizing s taken with
  | zero =>
    have hnext : s.pending = .lparen :: List.replicate n .lparen := by
      rw [h, Nat.add_comm, ← List.replicate_succ]
    exact form_bracket hnext
  | succ room ih =>
    have hnext : s.pending = .lparen :: List.replicate (room + 1 + n) .lparen := by
      rw [h, Nat.add_right_comm, List.replicate_succ]
    have hinside : List.replicate (room + 1 + n) Token.lparen =
        .lparen :: List.replicate (room + n) .lparen := by
      rw [Nat.add_right_comm, List.replicate_succ]
    have hinner := ih (s := ⟨some .lparen, List.replicate (room + n) .lparen, s.terminated⟩)
      (taken ++ [.lparen]) hinside.symm
    rw [List.append_assoc, List.singleton_append, ← List.replicate_succ] at hinner
    let inside : TokenStream := ⟨none, List.replicate (room + 1 + n) .lparen, s.terminated⟩
    exact (form_bracket hnext).trans (list_of_error (s := inside) hinside hinner)

theorem tally_brackets {n : Nat} (h : room < n) :
    tally room [.expression] ⟨ofText (List.replicate n (CodePoint.ofChar '(')), []⟩ =
      ⟨.exhausted, List.replicate (room + 1) .lparen⟩ := by
  obtain ⟨k, rfl⟩ := Nat.exists_eq_add_of_le (Nat.succ_le_of_lt h)
  refine congrArg Descent.ending (expression_brackets room k [] ?_)
  exact congrArg Tokens.tokens (Tokens.Scans.ofText (scans_brackets _))

/-- Of brackets nested deeper than a session allows, those that are not read are lost. -/
theorem deep_brackets_lose_tokens :
    ¬ ∀ (host : Host) (source : Text) (steps : List Step),
      (Tokens.ofText source).terminated = true →
      let t := tally host.depth steps ⟨ofText source, []⟩
      t.taken ++ t.stream.lookahead.toList ++ t.stream.unread = (Tokens.ofText source).tokens := by
  intro hkeeps
  have hdepth : Host.bare.depth + 1 < 30000 := by decide
  have hscan := Tokens.Scans.ofText (scans_brackets 30000)
  have hall := hkeeps .bare (List.replicate 30000 (CodePoint.ofChar '(')) [.expression]
    (by rw [hscan])
  rw [tally_brackets ((Nat.lt_succ_self _).trans hdepth), hscan] at hall
  have hlength := congrArg List.length hall
  simp only [exhausted, Option.toList_none, List.append_nil, List.length_replicate] at hlength
  exact hdepth.ne hlength

end TokenStream

end RationalLisp
