import RationalLisp.Proofs.ExpressionGrammar
import RationalLisp.Reader.Stream

/-!
# Reading by recursive descent

An expression can be read off a stream by looking at the next token and taking it, and by reading
the expressions inside it in the same way. Here every token that is taken is noted. Reading by
descent never drops a token, wherever it stops, unless the forms are nested too deep; and it comes
to the same answer as the reader with its stack of open forms and leaves the same stream behind.

## Implementation notes

A list is read in a loop. Each round takes a token or ends the loop, so the number of tokens to come
bounds the number of rounds.
-/

namespace RationalLisp

/-- A stream with the tokens that have been taken from it so far. -/
structure Tally where
  stream : TokenStream
  taken : List Token
  deriving DecidableEq

/-- All tokens of a stream: those taken, the one looked at, and those not read yet. -/
def Tally.all (t : Tally) : List Token := t.taken ++ t.stream.pending

/-- A way to read that notes the tokens it takes. -/
abbrev Descent := EStateM ReadFailure Tally

namespace Descent

/-- Look at the next token. -/
def look : Descent (Option Token) := fun t =>
  match t.stream.peek with
  | (.ok next, s) => .ok next { t with stream := s }
  | (.error failure, s) => .error failure { t with stream := s }

/-- Take the next token. -/
def take : Descent (Option Token) := fun t =>
  match t.stream.advance with
  | (.ok next, s) => .ok next ⟨s, t.taken ++ next.toList⟩
  | (.error failure, s) => .error failure { t with stream := s }

/-- There is no room for one more form, nor for scanning one more token. -/
def refuse {α : Type} : Descent α := fun t => .error .outOfDepth { t with stream := .exhausted }

/-- A result that needs no more tokens. -/
def ofExcept {α : Type} : Except ReadFailure α → Descent α
  | .ok a => pure a
  | .error failure => throw failure

/-- What follows a quote, given how to read an expression. -/
def quoted (expression : Descent (Option Value)) : Descent (Option Value) := do
  match ← expression with
  | some v => pure (some v.quoted)
  | none => throw (.malformed .quoteWithoutExpression)

/-- What follows the point in a list. -/
def tail (expression : Descent (Option Value)) (seen : List Value) : Descent (Option Value) := do
  match ← expression with
  | none => throw (.malformed .dottedTailNotClosed)
  | some last =>
    match ← look with
    | some .rparen => take >>= fun _ => pure (some (.chain seen.reverse last))
    | _ => throw (.malformed .dottedTailNotClosed)

/-- What follows the items seen of a list, in at most so many rounds. -/
def items (expression : Descent (Option Value)) : Nat → List Value → Descent (Option Value)
  | 0, _ => refuse
  | rounds + 1, seen => do
    match ← look with
    | none => throw (.malformed .unmatchedOpen)
    | some .rparen => take >>= fun _ => pure (some (.ofList seen.reverse))
    | some t =>
      if t = .symbol "." ∧ seen ≠ [] then take >>= fun _ => tail expression seen
      else
        match ← expression with
        | some v => items expression rounds (v :: seen)
        | none => throw (.malformed .unmatchedOpen)

/-- What follows the opening bracket of a list. -/
def list (expression : Descent (Option Value)) : Descent (Option Value) := do
  items expression ((← get).stream.pending.length + 1) []

/-- Read an expression, given how to go on after a quote and after a bracket. -/
def form (afterQuote afterBracket : Descent (Option Value)) : Descent (Option Value) := do
  match ← look with
  | none => pure none
  | some (.symbol name) => take >>= fun _ => ofExcept ((Reader.ofSymbol name).map some)
  | some (.string body) =>
    take >>= fun _ => pure (some (Value.ofText (Reader.unescape body)).quoted)
  | some .quote => take >>= fun _ => afterQuote
  | some .lparen => take >>= fun _ => afterBracket
  | some .rparen => throw (.malformed .unexpectedClose)

/-- Read an expression in which quotes and brackets are nested at most so deep; none at the end of
the stream. -/
def expression : Nat → Descent (Option Value)
  | 0 => form refuse refuse
  | room + 1 => form (quoted (expression room)) (list (expression room))

variable {α β : Type} {m : Descent α} {k : α → Descent β} {t u : Tally} {terminated : Bool}
variable {next : Token} {rest taken : List Token}

theorem bind_of_ok {a : α} (h : m t = .ok a u) : (m >>= k) t = k a u := by
  change EStateM.bind m k t = k a u
  rw [EStateM.bind, h]

theorem bind_of_error {failure : ReadFailure} (h : m t = .error failure u) :
    (m >>= k) t = .error failure u := by
  change EStateM.bind m k t = .error failure u
  rw [EStateM.bind, h]

/-! ### No token is dropped -/

/-- The stream and the tokens taken from it at the end, whether there is an answer or a failure. -/
def ending : EStateM.Result ReadFailure Tally α → Tally
  | .ok _ t => t
  | .error _ t => t

/-- The answer at the end. -/
def answer : EStateM.Result ReadFailure Tally α → Except ReadFailure α
  | .ok a _ => .ok a
  | .error failure _ => .error failure

/-- What a way to read does to the stream, without the note of what it takes. -/
def onStream (m : Descent α) (t : Tally) : Except ReadFailure α × TokenStream :=
  (answer (m t), (ending (m t)).stream)

/-- However the reading ends, all tokens are still there. Only where forms are nested too deep, the
last of them may be missing. -/
def Conserves (m : Descent α) : Prop :=
  ∀ t, (∃ u, m t = .error .outOfDepth u ∧ u.all <+: t.all) ∨ (ending (m t)).all = t.all

theorem conserves_pure (a : α) : Conserves (pure a : Descent α) := fun _ => .inr rfl

theorem conserves_throw (failure : ReadFailure) : Conserves (throw failure : Descent α) :=
  fun _ => .inr rfl

theorem conserves_ofExcept (r : Except ReadFailure α) : Conserves (ofExcept r) := by
  cases r with
  | ok a => exact conserves_pure a
  | error failure => exact conserves_throw failure

theorem conserves_refuse : Conserves (refuse : Descent α) := by
  refine fun t => .inl ⟨_, rfl, ?_⟩
  exact List.prefix_append_right_inj t.taken |>.mpr List.nil_prefix

theorem conserves_bind (hm : Conserves m) (hk : ∀ a, Conserves (k a)) : Conserves (m >>= k) := by
  intro t
  obtain ⟨u, hu, hprefix⟩ | hall := hm t
  · exact .inl ⟨u, bind_of_error hu, hprefix⟩
  · cases hmt : m t with
    | ok a u =>
      rw [hmt] at hall
      rw [bind_of_ok hmt, ← hall]
      exact hk a u
    | error failure u =>
      rw [hmt] at hall
      rw [bind_of_error hmt]
      exact .inr hall

@[simp] theorem all_look (t : Tally) : (ending (look t)).all = t.all := by
  obtain ⟨⟨lookahead, unread, terminated⟩, taken⟩ := t
  match lookahead, unread, terminated with
  | some _, _, _ => rfl
  | none, _ :: _, _ => rfl
  | none, [], true => rfl
  | none, [], false => rfl

@[simp] theorem all_take (t : Tally) : (ending (take t)).all = t.all := by
  obtain ⟨⟨lookahead, unread, terminated⟩, taken⟩ := t
  match lookahead, unread, terminated with
  | some t, _, _ => exact List.append_assoc taken [t] _
  | none, t :: rest, _ => exact List.append_assoc taken [t] rest
  | none, [], true => exact List.append_assoc taken [] []
  | none, [], false => rfl

theorem conserves_look : Conserves look := fun t => .inr (all_look t)

theorem conserves_take : Conserves take := fun t => .inr (all_take t)

section Parts

variable {inner : Descent (Option Value)} (h : Conserves inner)
include h

theorem conserves_quoted : Conserves (quoted inner) := by
  refine conserves_bind h fun v => ?_
  cases v with
  | some v => exact conserves_pure _
  | none => exact conserves_throw _

theorem conserves_tail (seen : List Value) : Conserves (tail inner seen) := by
  refine conserves_bind h fun v => ?_
  cases v with
  | none => exact conserves_throw _
  | some last =>
    refine conserves_bind conserves_look fun next => ?_
    split
    · exact conserves_bind conserves_take fun _ => conserves_pure _
    · exact conserves_throw _

theorem conserves_items (rounds : Nat) (seen : List Value) :
    Conserves (items inner rounds seen) := by
  induction rounds generalizing seen with
  | zero => exact conserves_refuse
  | succ rounds ih =>
    refine conserves_bind conserves_look fun next => ?_
    split
    · exact conserves_throw _
    · exact conserves_bind conserves_take fun _ => conserves_pure _
    · split
      · exact conserves_bind conserves_take fun _ => conserves_tail h seen
      · refine conserves_bind h fun v => ?_
        cases v with
        | some v => exact ih _
        | none => exact conserves_throw _

theorem conserves_list : Conserves (list inner) := fun t => conserves_items h _ [] t

end Parts

theorem conserves_form {afterQuote afterBracket : Descent (Option Value)}
    (hquote : Conserves afterQuote) (hbracket : Conserves afterBracket) :
    Conserves (form afterQuote afterBracket) := by
  refine conserves_bind conserves_look fun next => ?_
  split
  · exact conserves_pure _
  · exact conserves_bind conserves_take fun _ => conserves_ofExcept _
  · exact conserves_bind conserves_take fun _ => conserves_pure _
  · exact conserves_bind conserves_take fun _ => hquote
  · exact conserves_bind conserves_take fun _ => hbracket
  · exact conserves_throw _

/-- Reading an expression drops no token, wherever it stops, but for forms nested too deep. -/
theorem conserves_expression (room : Nat) : Conserves (expression room) := by
  induction room with
  | zero => exact conserves_form conserves_refuse conserves_refuse
  | succ room ih => exact conserves_form (conserves_quoted ih) (conserves_list ih)

/-! ### Descent and the stack of open forms -/

theorem look_of_cons {s : TokenStream} (h : s.pending = next :: rest) :
    look ⟨s, taken⟩ = .ok (some next) ⟨⟨some next, rest, s.terminated⟩, taken⟩ := by
  obtain ⟨lookahead, unread, terminated⟩ := s
  match lookahead, unread with
  | some _, _ =>
    obtain ⟨rfl, rfl⟩ := List.cons.inj h
    rfl
  | none, _ :: _ =>
    obtain ⟨rfl, rfl⟩ := List.cons.inj h
    rfl
  | none, [] => exact nomatch h

/-- At the end of the tokens there is nothing to look at, or scanning fails there. -/
theorem look_of_nil (taken : List Token) {s : TokenStream} (h : s.pending = []) :
    s.terminated = true ∧ look ⟨s, taken⟩ = .ok none ⟨⟨none, [], true⟩, taken⟩ ∨
      s.terminated = false ∧
        look ⟨s, taken⟩ = .error (.malformed .unterminatedString) ⟨.exhausted, taken⟩ := by
  obtain ⟨lookahead, unread, terminated⟩ := s
  match lookahead, unread, terminated with
  | some _, _, _ => exact nomatch h
  | none, _ :: _, _ => exact nomatch h
  | none, [], true => exact .inl ⟨rfl, rfl⟩
  | none, [], false => exact .inr ⟨rfl, rfl⟩

theorem take_of_looked :
    take ⟨⟨some next, rest, terminated⟩, taken⟩ =
      .ok (some next) ⟨⟨none, rest, terminated⟩, taken ++ [next]⟩ := rfl

open Reader

/-- The descent ends as the reading does: with a value that is handed to the open forms, after
fewer tokens than the bound, or with the same failure and the stream that it leaves. -/
inductive Follows (terminated : Bool) (room : Nat) (opened : List Open) (bound : Nat) :
    Reading → EStateM.Result ReadFailure Tally (Option Value) → Prop
  | value {reading : Reading} {v : Value} {rest taken : List Token} :
      reading = handOver terminated room opened rest v → rest.length < bound →
      Follows terminated room opened bound reading (.ok (some v) ⟨⟨none, rest, terminated⟩, taken⟩)
  | failure {failure : ReadFailure} {left taken : List Token} {s u : TokenStream} :
      s.terminated = terminated → u = s.afterFailure failure left →
      Follows terminated room opened bound (.failed failure left) (.error failure ⟨u, taken⟩)

/-- The first token is not one that the innermost open form would take for a mark of its own. -/
def Enters (opened : List Open) (tokens : List Token) : Prop :=
  ∀ seen outer, opened = .list seen :: outer →
    tokens.head? ≠ some .rparen ∧ (seen ≠ [] → tokens.head? ≠ some (.symbol "."))

/-- Wherever an expression is wanted, the descent ends as the reading does, or finds nothing at the
end of the stream. -/
def Agrees (room : Nat) (m : Descent (Option Value)) : Prop :=
  ∀ s taken opened, Enters opened s.pending →
    s.pending = [] ∧ s.terminated = true ∧ m ⟨s, taken⟩ = .ok none ⟨⟨none, [], true⟩, taken⟩ ∨
    Follows s.terminated room opened s.pending.length
      (readFrom s.terminated room (.expression opened) s.pending) (m ⟨s, taken⟩)

section Rules

variable {room inside bound bound' : Nat} {opened outer : List Open} {wanted : Wanted}
variable {reading : Reading} {s : TokenStream} {inner : Descent (Option Value)}

theorem Follows.mono {r : EStateM.Result ReadFailure Tally (Option Value)}
    (h : Follows terminated room opened bound reading r) (hle : bound ≤ bound') :
    Follows terminated room opened bound' reading r := by
  cases h with
  | value hread hlt => exact .value hread (hlt.trans_le hle)
  | failure hs hu => exact .failure hs hu

/-- A failure without a token taken or looked at before it. -/
theorem follows_throw {failure : ReadFailure} {left : List Token} {u : TokenStream}
    (hread : reading = .failed failure left) (hu : u = s.afterFailure failure left) :
    Follows s.terminated room opened bound reading
      ((throw failure : Descent (Option Value)) ⟨u, taken⟩) := by
  rw [hread]
  exact .failure rfl hu

/-- The descent looks at the next token where the reader takes it. -/
theorem follows_look {k : Option Token → Descent (Option Value)}
    (hend : s.pending = [] → s.terminated = true → Follows true room opened bound
      (readFrom true inside wanted []) (k none ⟨⟨none, [], true⟩, taken⟩))
    (hnext : ∀ next rest, s.pending = next :: rest →
      Follows s.terminated room opened bound (readFrom s.terminated inside wanted (next :: rest))
        (k (some next) ⟨⟨some next, rest, s.terminated⟩, taken⟩)) :
    Follows s.terminated room opened bound (readFrom s.terminated inside wanted s.pending)
      ((look >>= k) ⟨s, taken⟩) := by
  cases hpending : s.pending with
  | cons next rest =>
    rw [bind_of_ok (look_of_cons hpending)]
    exact hnext next rest hpending
  | nil =>
    obtain ⟨hterminated, hlook⟩ | ⟨hterminated, hlook⟩ := look_of_nil taken hpending
    · rw [bind_of_ok hlook, hterminated]
      exact hend hpending hterminated
    · -- the literal that is never closed is reported, whatever is wanted
      rw [bind_of_error hlook, readFrom, atEnd, hterminated]
      exact .failure hterminated rfl

/-- The descent reads an expression where the reader opens no new form. -/
theorem Agrees.follows {k : Option Value → Descent (Option Value)} (h : Agrees inside inner)
    (henters : Enters outer s.pending)
    (hend : s.terminated = true → Follows true room opened bound
      (readFrom true inside (.expression outer) []) (k none ⟨⟨none, [], true⟩, taken⟩))
    (hvalue : ∀ v rest taken, rest.length < s.pending.length →
      Follows s.terminated room opened bound (handOver s.terminated inside outer rest v)
        (k (some v) ⟨⟨none, rest, s.terminated⟩, taken⟩)) :
    Follows s.terminated room opened bound
      (readFrom s.terminated inside (.expression outer) s.pending) ((inner >>= k) ⟨s, taken⟩) := by
  obtain ⟨hpending, hterminated, hnone⟩ | hinner := h s taken outer henters
  · rw [bind_of_ok hnone, hpending, hterminated]
    exact hend hterminated
  · generalize readFrom s.terminated inside (.expression outer) s.pending = reading at hinner
    generalize hresult : inner ⟨s, taken⟩ = result at hinner
    cases hinner with
    | value hread hlt =>
      rw [bind_of_ok hresult, hread]
      exact hvalue _ _ _ hlt
    | failure hs hu =>
      rw [bind_of_error hresult]
      exact .failure hs hu

end Rules

section Parts

variable {room : Nat} {opened : List Open} {seen : List Value} {s : TokenStream}
variable {inner : Descent (Option Value)} (h : Agrees room inner)
include h

theorem quoted_follows :
    Follows terminated (room + 1) opened (rest.length + 1)
      (readFrom terminated (room + 1) (.expression opened) (.quote :: rest))
      (quoted inner ⟨⟨none, rest, terminated⟩, taken⟩) := by
  rw [readFrom_quote]
  refine h.follows (s := ⟨none, rest, terminated⟩) nofun (fun _ => ?_) fun v rest taken hlt => ?_
  · exact follows_throw (s := ⟨none, [], true⟩) rfl rfl
  · exact .value rfl (Nat.lt_succ_of_lt hlt)

theorem tail_follows :
    Follows terminated (room + 1) opened rest.length
      (readFrom terminated room (.expression (.tail seen :: opened)) rest)
      (tail inner seen ⟨⟨none, rest, terminated⟩, taken⟩) := by
  refine h.follows (s := ⟨none, rest, terminated⟩) nofun (fun _ => ?_) fun v rest taken hlt => ?_
  · exact follows_throw (s := ⟨none, [], true⟩) rfl rfl
  · refine follows_look (s := ⟨none, rest, terminated⟩) (fun _ _ => ?_) fun next left hleft => ?_
    · exact follows_throw (s := ⟨none, [], true⟩) rfl rfl
    · change rest = next :: left at hleft
      subst hleft
      cases next with
      | rparen => exact .value readFrom_close ((Nat.lt_succ_self _).trans hlt)
      | _ => exact follows_throw (s := ⟨none, [], terminated⟩) rfl rfl

/-- A list is read in fewer rounds than there are tokens to come. -/
theorem items_follows {rounds : Nat} (hrounds : s.pending.length < rounds) :
    Follows s.terminated (room + 1) opened s.pending.length
      (readFrom s.terminated room (.expression (.list seen :: opened)) s.pending)
      (items inner rounds seen ⟨s, taken⟩) := by
  induction rounds generalizing s seen taken with
  | zero => exact absurd hrounds (Nat.not_lt_zero _)
  | succ rounds ih =>
    refine follows_look (fun _ _ => ?_) fun next rest hpending => ?_
    · exact follows_throw (s := ⟨none, [], true⟩) rfl rfl
    rw [hpending, List.length_cons] at hrounds ⊢
    have hround : next ≠ .rparen →
        Follows s.terminated (room + 1) opened (rest.length + 1)
          (readFrom s.terminated room (.expression (.list seen :: opened)) (next :: rest))
          ((if next = .symbol "." ∧ seen ≠ [] then take >>= fun _ => tail inner seen
            else inner >>= fun r => match r with
              | some v => items inner rounds (v :: seen)
              | none => throw (.malformed .unmatchedOpen))
            ⟨⟨some next, rest, s.terminated⟩, taken⟩) := by
      intro hclose
      split
      · rename_i hpoint
        obtain ⟨rfl, hseen⟩ := hpoint
        rw [bind_of_ok take_of_looked, readFrom_point hseen]
        exact (tail_follows h).mono (Nat.le_succ _)
      · rename_i hpoint
        have henters : Enters (.list seen :: opened) (next :: rest) := by
          rintro _ _ ⟨⟩
          exact ⟨by simpa using hclose, fun hseen => by simpa using fun heq => hpoint ⟨heq, hseen⟩⟩
        refine h.follows (s := ⟨some next, rest, s.terminated⟩) henters (fun _ => ?_)
          fun v left taken hlt => ?_
        · exact follows_throw (s := ⟨none, [], true⟩) rfl rfl
        · have hleft : left.length < rounds := hlt.trans_le (Nat.le_of_lt_succ hrounds)
          exact (ih (s := ⟨none, left, s.terminated⟩) hleft).mono hlt.le
    cases next with
    | rparen => exact .value readFrom_rparen (Nat.lt_succ_self _)
    | _ => exact hround (by simp)

theorem list_follows :
    Follows terminated (room + 1) opened (rest.length + 1)
      (readFrom terminated (room + 1) (.expression opened) (.lparen :: rest))
      (list inner ⟨⟨none, rest, terminated⟩, taken⟩) := by
  rw [readFrom_lparen]
  exact (items_follows h (s := ⟨none, rest, terminated⟩) (Nat.lt_succ_self _)).mono
    (Nat.le_succ _)

end Parts

/-- Without room, a form is refused where the reader refuses it. -/
theorem refuse_follows (h : next = .quote ∨ next = .lparen) :
    Follows terminated 0 opened bound
      (readFrom terminated 0 (.expression opened) (next :: rest))
      (refuse ⟨⟨none, rest, terminated⟩, taken⟩) := by
  obtain rfl | rfl := h
  all_goals exact .failure (s := ⟨none, [], terminated⟩) rfl rfl

/-- A symbol that denotes nothing has been taken when it is found out. -/
theorem afterFailure_of_symbol {name : Text} {failure : ReadFailure}
    (h : ofSymbol name = .error failure) (s : TokenStream) (left : List Token) :
    s.afterFailure failure left = ⟨none, left, s.terminated⟩ := by
  unfold ofSymbol at h
  split at h
  · exact nomatch h
  split at h
  · exact nomatch h
  split at h
  · exact nomatch h
  split at h
  · cases h
    rfl
  split at h
  · cases h
    rfl
  · exact nomatch h

theorem readFrom_symbol_error {name : Text} {failure : ReadFailure}
    (h : ofSymbol name = .error failure) :
    readFrom terminated room (.expression opened) (.symbol name :: rest) =
      .failed failure rest := by
  have hsymbol : symbol room name opened = .failed failure true := by
    unfold symbol
    split
    · split
      · rename_i hname
        subst hname
        exact nomatch h
      · rw [h]
    · rw [h]
  rw [readFrom, step, hsymbol]
  rfl

theorem readFrom_unexpectedClose (h : Enters opened (.rparen :: rest)) :
    readFrom terminated room (.expression opened) (.rparen :: rest) =
      .failed (.malformed .unexpectedClose) (.rparen :: rest) := by
  cases opened with
  | nil => rfl
  | cons form outer =>
    cases form with
    | list seen => exact absurd rfl (h seen outer rfl).1
    | _ => rfl

theorem follows_symbol {name : Text} (henters : Enters opened (.symbol name :: rest)) :
    Follows terminated room opened (rest.length + 1)
      (readFrom terminated room (.expression opened) (.symbol name :: rest))
      (ofExcept ((ofSymbol name).map some) ⟨⟨none, rest, terminated⟩, taken⟩) := by
  cases hv : ofSymbol name with
  | ok v =>
    refine .value (reads_symbol hv ?_) (Nat.lt_succ_self _)
    rintro item items outer heq hpoint
    obtain rfl : name = ("." : Text) := by simpa [Phrase.IsPoint] using hpoint
    exact (henters _ _ heq).2 (List.cons_ne_nil _ _) rfl
  | error failure =>
    exact follows_throw (s := ⟨none, [], terminated⟩) (readFrom_symbol_error hv)
      (afterFailure_of_symbol hv ⟨none, [], terminated⟩ rest).symm

/-- Given how to go on after a quote and a bracket, expressions are read as the reader does. -/
theorem form_agrees {afterQuote afterBracket : Descent (Option Value)}
    (hquote : ∀ terminated opened rest taken, Follows terminated room opened (rest.length + 1)
      (readFrom terminated room (.expression opened) (.quote :: rest))
      (afterQuote ⟨⟨none, rest, terminated⟩, taken⟩))
    (hbracket : ∀ terminated opened rest taken, Follows terminated room opened (rest.length + 1)
      (readFrom terminated room (.expression opened) (.lparen :: rest))
      (afterBracket ⟨⟨none, rest, terminated⟩, taken⟩)) :
    Agrees room (form afterQuote afterBracket) := by
  intro s taken opened henters
  by_cases hend : s.pending = [] ∧ s.terminated = true
  · obtain ⟨hpending, hterminated⟩ := hend
    obtain ⟨-, hlook⟩ | ⟨hnot, -⟩ := look_of_nil taken hpending
    · refine .inl ⟨hpending, hterminated, ?_⟩
      rw [form, bind_of_ok hlook]
      rfl
    · exact absurd hterminated (by simp [hnot])
  · refine .inr (follows_look (fun hpending hterminated => absurd ⟨hpending, hterminated⟩ hend)
      fun next rest hpending => ?_)
    rw [hpending] at henters ⊢
    cases next with
    | symbol name => exact follows_symbol henters
    | string body => exact .value (readFrom_of_deliver rfl) (Nat.lt_succ_self _)
    | quote => exact hquote _ _ _ _
    | lparen => exact hbracket _ _ _ _
    | rparen => exact follows_throw (readFrom_unexpectedClose henters) rfl

/-- An expression is read by descent as the reader reads it. -/
theorem expression_agrees (room : Nat) : Agrees room (expression room) := by
  induction room with
  | zero =>
    exact form_agrees (fun _ _ _ _ => refuse_follows (.inl rfl))
      fun _ _ _ _ => refuse_follows (.inr rfl)
  | succ room ih =>
    exact form_agrees (fun _ _ _ _ => quoted_follows ih) fun _ _ _ _ => list_follows ih

theorem afterFailure_congr {s u : TokenStream} (h : s.terminated = u.terminated)
    (failure : ReadFailure) (left : List Token) :
    s.afterFailure failure left = u.afterFailure failure left := by
  unfold TokenStream.afterFailure
  rw [h]

theorem onStream_look (t : Tally) : onStream look t = t.stream.peek := by
  rw [onStream, look]
  cases t.stream.peek with
  | mk next s => cases next <;> rfl

theorem onStream_take (t : Tally) : onStream take t = t.stream.advance := by
  rw [onStream, take]
  cases t.stream.advance with
  | mk next s => cases next <;> rfl

/-- Reading an expression off a stream by descent comes to the answer of the stream itself, and
leaves the same stream. -/
theorem onStream_expression (room : Nat) (t : Tally) :
    onStream (expression room) t = t.stream.next room := by
  obtain ⟨s, taken⟩ := t
  rw [onStream, TokenStream.next]
  obtain ⟨hpending, hterminated, hnone⟩ | h := expression_agrees room s taken [] nofun
  · obtain ⟨lookahead, unread, terminated⟩ := s
    change terminated = true at hterminated
    obtain ⟨hlookahead, rfl⟩ := List.append_eq_nil_iff.mp hpending
    obtain rfl := Option.toList_eq_nil_iff.mp hlookahead
    subst hterminated
    rw [hnone]
    rfl
  · dsimp only
    generalize readFrom s.terminated room (.expression []) s.pending = reading at h ⊢
    generalize expression room ⟨s, taken⟩ = result at h ⊢
    cases h with
    | value hread _ =>
      rw [hread]
      rfl
    | failure hs hu =>
      rw [hu, afterFailure_congr hs]
      rfl

end Descent

end RationalLisp
