import RationalLisp.Reader

/-! # Token streams

A stream hands out the tokens of source text one by one, with one token of look-ahead. An
unterminated string literal is reported once, when it is reached, and the stream is at its end
after that. It is at its end, too, when there has been no room for one more form. The tokens are
scanned on demand, from within the forms that are being read, so it is as a rule the scanner that
finds no room, and it does not go on after that. -/

namespace RationalLisp

/-- The tokens that have not been handed out. -/
structure TokenStream where
  lookahead : Option Token
  unread : List Token
  terminated : Bool
  deriving DecidableEq

namespace TokenStream

/-- The stream of all tokens of source text. -/
def ofText (source : Text) : TokenStream :=
  let tokens := Tokens.ofText source
  ⟨none, tokens.tokens, tokens.terminated⟩

/-- The tokens still to come. -/
def pending (s : TokenStream) : List Token := s.lookahead.toList ++ s.unread

/-- The stream with nothing left. -/
def exhausted : TokenStream := ⟨none, [], true⟩

/-- The next token, which stays in the stream. -/
def peek (s : TokenStream) : Except ReadFailure (Option Token) × TokenStream :=
  match s.lookahead, s.unread with
  | some t, _ => (.ok (some t), s)
  | none, t :: rest => (.ok (some t), { s with lookahead := some t, unread := rest })
  | none, [] =>
    if s.terminated then (.ok none, s) else (.error (.malformed .unterminatedString), exhausted)

/-- The next token, which leaves the stream. -/
def advance (s : TokenStream) : Except ReadFailure (Option Token) × TokenStream :=
  match s.lookahead, s.unread with
  | some t, _ => (.ok (some t), { s with lookahead := none })
  | none, t :: rest => (.ok (some t), { s with unread := rest })
  | none, [] =>
    if s.terminated then (.ok none, s) else (.error (.malformed .unterminatedString), exhausted)

/-- The stream after a failure that leaves the given tokens. A token that was looked at and not
taken stays in the look-ahead. Nothing is left after an unterminated string literal, and nothing
where there was no room. -/
def afterFailure (s : TokenStream) (failure : ReadFailure) (rest : List Token) : TokenStream :=
  match failure, rest with
  | .malformed .unexpectedClose, t :: rest => ⟨some t, rest, s.terminated⟩
  | .malformed .dottedTailNotClosed, t :: rest => ⟨some t, rest, s.terminated⟩
  | .malformed .unterminatedString, _ => exhausted
  | .outOfDepth, _ => exhausted
  | _, rest => ⟨none, rest, s.terminated⟩

/-- The next expression; none at the end of the stream. -/
def next (room : Nat) (s : TokenStream) : Except ReadFailure (Option Value) × TokenStream :=
  match Reader.readFrom s.terminated room (.expression []) s.pending with
  | .finished => (.ok none, s)
  | .expression v rest => (.ok (some v), ⟨none, rest, s.terminated⟩)
  | .failed failure rest => (.error failure, s.afterFailure failure rest)

end TokenStream

end RationalLisp
