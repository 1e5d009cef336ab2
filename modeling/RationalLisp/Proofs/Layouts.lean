import RationalLisp.Proofs.TokenGrammar
import RationalLisp.Reader.Stream
import Mathlib.Data.List.Chain

/-!
# Layouts

A layout takes a text apart into its tokens, each with the gap in front of it, and the gap at the
end. The scanner finds the tokens of a layout, a text has at most one, and the scanner stops early
only at a string literal that is never closed.
-/

namespace RationalLisp

/-- A text taken apart: its tokens, each with the gap in front of it, and the gap at the end. -/
structure Layout where
  pieces : List (Text × Token)
  last : Text

namespace Layout

open Text

/-- The text that pieces make in front of another one. -/
def textBefore (after : Text) : List (Text × Token) → Text
  | [] => after
  | (gap, t) :: pieces => gap ++ (t.text ++ textBefore after pieces)

/-- The text that has been taken apart. -/
def text (l : Layout) : Text := textBefore l.last l.pieces

/-- The tokens of a text that has been taken apart. -/
def tokens (l : Layout) : List Token := l.pieces.map Prod.snd

/-- In front of the given text, the pieces are tokens with gaps. -/
def FitBefore (after : Text) : List (Text × Token) → Prop
  | [] => True
  | (gap, t) :: pieces =>
    GapBefore (t.text ++ textBefore after pieces) gap ∧ t.WellFormed ∧ FitBefore after pieces

/-- Two symbols in a row have a gap between them. -/
def Apart (p q : Text × Token) : Prop :=
  p.2.isOpenEnded = true → q.2.isOpenEnded = true → q.1 ≠ []

/-- The text has been taken apart into tokens and gaps, with a gap between any two symbols in a
row. -/
structure Lawful (l : Layout) : Prop where
  pieces : FitBefore l.last l.pieces
  apart : l.pieces.IsChain Apart
  last : GapBefore [] l.last

variable {after : Text} {pieces : List (Text × Token)}

theorem textBefore_append (after rest : Text) (pieces : List (Text × Token)) :
    textBefore after pieces ++ rest = textBefore (after ++ rest) pieces := by
  induction pieces with
  | nil => rfl
  | cons p pieces ih => simp only [textBefore, List.append_assoc, ih]

/-- What follows the pieces does not matter to the gaps between them. -/
theorem FitBefore.congr (h : FitBefore after pieces) (after' : Text) :
    FitBefore after' pieces := by
  induction pieces with
  | nil => trivial
  | cons p pieces ih =>
    obtain ⟨hgap, hform, hrest⟩ := h
    refine ⟨hgap.congr ?_, hform, ih hrest⟩
    exact iff_of_false (hform.not_endsLine _) (hform.not_endsLine _)

/-- No symbol goes on into pieces that are apart from it. -/
theorem endsSymbol_textBefore (h : FitBefore after pieces) (hafter : after.EndsSymbol)
    (happart : ∀ q ∈ pieces.head?, q.2.isOpenEnded = true → q.1 ≠ []) :
    (textBefore after pieces).EndsSymbol := by
  cases pieces with
  | nil => exact hafter
  | cons q pieces =>
    obtain ⟨hgap, hform, -⟩ := h
    refine hgap.endsSymbol fun hnil => ?_
    obtain ⟨c, rest, htext, -, -, hc⟩ := hform.text_eq
    rw [htext]
    refine endsSymbol_cons ?_ _
    rw [hc, Bool.eq_false_iff]
    exact fun hopen => happart q rfl hopen hnil

/-- The first piece is found at the front. -/
theorem front_textBefore {gap : Text} {t : Token} (h : FitBefore after ((gap, t) :: pieces))
    (happart : List.IsChain Apart ((gap, t) :: pieces)) (hafter : after.EndsSymbol) :
    Token.front (textBefore after ((gap, t) :: pieces)) = .token t (textBefore after pieces) := by
  obtain ⟨hgap, hform, hrest⟩ := h
  refine Token.front_eq_token_iff.mpr ⟨hform, fun hopen => ?_, gap, rfl, hgap⟩
  exact endsSymbol_textBefore hrest hafter
    fun q hq => (List.isChain_cons.mp happart).1 q hq hopen

/-- The tokens of the pieces are found one by one. -/
theorem scanOnto_textBefore (h : FitBefore after pieces) (happart : pieces.IsChain Apart)
    (hafter : after.EndsSymbol) (seen : List Token) :
    Tokens.scanOnto seen (textBefore after pieces) =
      Tokens.scanOnto ((pieces.map Prod.snd).reverse ++ seen) after := by
  induction pieces generalizing seen with
  | nil => rfl
  | cons p pieces ih =>
    rw [Tokens.scanOnto_of_token (front_textBefore h happart hafter), ih h.2.2 happart.tail]
    simp

/-- A symbol and the pieces after it are apart if it does not go on in them. -/
theorem apart_of_endsSymbol (h : FitBefore after pieces) {p : Text × Token}
    (hends : p.2.isOpenEnded = true → (textBefore after pieces).EndsSymbol) :
    ∀ q ∈ pieces.head?, Apart p q := by
  intro q hq hp hopen hnil
  cases pieces with
  | nil => exact nomatch hq
  | cons q' pieces =>
    cases hq
    obtain ⟨c, rest, htext, -, -, hc⟩ := h.2.1.text_eq
    have hsymbol : c.isSymbol = false := by
      refine hends hp c (rest ++ textBefore after pieces) ?_
      rw [textBefore, hnil, htext]
      rfl
    rw [hc, hopen] at hsymbol
    exact nomatch hsymbol

/-- Every text can be taken apart as far as tokens follow each other. -/
theorem exists_pieces (source : Text) :
    ∃ pieces after, textBefore after pieces = source ∧ FitBefore after pieces ∧
      pieces.IsChain Apart ∧ ∀ t rest, Token.front after ≠ .token t rest := by
  cases hfront : Token.front source with
  | done => exact ⟨[], source, rfl, trivial, .nil, by simp [hfront]⟩
  | unterminated => exact ⟨[], source, rfl, trivial, .nil, by simp [hfront]⟩
  | token t rest =>
    obtain ⟨hform, hends, gap, hsource, hgap⟩ := Token.front_eq_token_iff.mp hfront
    obtain ⟨pieces, after, rfl, hfit, happart, hafter⟩ := exists_pieces rest
    exact ⟨(gap, t) :: pieces, after, hsource.symm, ⟨hgap, hform, hfit⟩,
      happart.cons (apart_of_endsSymbol hfit hends), hafter⟩
termination_by source.length
decreasing_by exact Token.length_front_lt hfront

/-- What the pieces are in front of does not go on a symbol. -/
theorem endsSymbol_of_front (h : ∀ t rest, Token.front after ≠ .token t rest) :
    after.EndsSymbol := by
  cases hfront : Token.front after with
  | done =>
    have hgap := (Token.front_eq_done_iff.mp hfront).endsSymbol fun _ => endsSymbol_nil
    rwa [List.append_nil] at hgap
  | unterminated =>
    obtain ⟨gap, literal, rfl, hgap, -⟩ := Token.front_eq_unterminated_iff.mp hfront
    exact hgap.endsSymbol fun _ => endsSymbol_cons (by decide) literal
  | token t rest => exact absurd hfront (h t rest)

theorem Lawful.endsSymbol_last {l : Layout} (h : l.Lawful) : l.last.EndsSymbol :=
  endsSymbol_of_front fun t rest => by simp [Token.front_eq_done_iff.mpr h.last]

/-- A lawful layout shows what is at the front. -/
theorem Lawful.front_text {last : Text} (h : Lawful ⟨pieces, last⟩) :
    Token.front (text ⟨pieces, last⟩) =
      match pieces with
      | [] => .done
      | (_, t) :: pieces => .token t (textBefore last pieces) := by
  cases pieces with
  | nil => exact Token.front_eq_done_iff.mpr h.last
  | cons p pieces => exact front_textBefore h.pieces h.apart h.endsSymbol_last

theorem Lawful.tail {p : Text × Token} {last : Text} (h : Lawful ⟨p :: pieces, last⟩) :
    Lawful ⟨pieces, last⟩ :=
  ⟨h.pieces.2.2, h.apart.tail, h.last⟩

/-- A text has at most one layout. -/
theorem Lawful.unique {l l' : Layout} (h : l.Lawful) (h' : l'.Lawful) (heq : l.text = l'.text) :
    l = l' := by
  obtain ⟨pieces, last⟩ := l
  obtain ⟨pieces', last'⟩ := l'
  have hfront := h.front_text.symm.trans ((congrArg Token.front heq).trans h'.front_text)
  induction pieces generalizing pieces' with
  | nil =>
    cases pieces' with
    | nil => exact congrArg (Layout.mk []) heq
    | cons p' pieces' => exact nomatch hfront
  | cons p pieces ih =>
    cases pieces' with
    | nil => exact nomatch hfront
    | cons p' pieces' =>
      obtain ⟨gap, t⟩ := p
      obtain ⟨gap', t'⟩ := p'
      obtain ⟨rfl, hrest⟩ := Token.Front.token.inj hfront
      have hgap : gap = gap' := by
        simp only [text, textBefore, hrest] at heq
        exact List.append_cancel_right heq
      have htail : Layout.mk pieces last = ⟨pieces', last'⟩ :=
        ih h.tail pieces' h'.tail hrest
          (h.tail.front_text.symm.trans ((congrArg Token.front hrest).trans h'.tail.front_text))
      obtain ⟨rfl, rfl⟩ := Layout.mk.inj htail
      rw [hgap]

/-- The scanner runs to the end of a text exactly if the text has a layout. The tokens that it finds
are those of the layout. -/
theorem tokens_terminated_iff {source : Text} {ts : List Token} :
    Tokens.ofText source = ⟨ts, true⟩ ↔
      ∃ l : Layout, l.Lawful ∧ l.text = source ∧ l.tokens = ts := by
  constructor
  · intro h
    obtain ⟨pieces, after, rfl, hfit, happart, hafter⟩ := exists_pieces source
    rw [Tokens.ofText, scanOnto_textBefore hfit happart (endsSymbol_of_front hafter)] at h
    cases hfront : Token.front after with
    | done =>
      rw [Tokens.scanOnto_of_done hfront] at h
      refine ⟨⟨pieces, after⟩, ⟨hfit, happart, Token.front_eq_done_iff.mp hfront⟩, rfl, ?_⟩
      simpa [tokens] using (Tokens.mk.inj h).1
    | unterminated =>
      rw [Tokens.scanOnto_of_unterminated hfront] at h
      cases h
    | token t rest => exact absurd hfront (hafter t rest)
  · rintro ⟨l, hl, rfl, rfl⟩
    rw [Tokens.ofText, text, scanOnto_textBefore hl.pieces hl.apart hl.endsSymbol_last,
      Tokens.scanOnto_of_done (Token.front_eq_done_iff.mpr hl.last)]
    simp [tokens]

/-- The scanner stops early exactly if a string literal comes after a layout and is never closed. -/
theorem tokens_unterminated_iff {source : Text} {ts : List Token} :
    Tokens.ofText source = ⟨ts, false⟩ ↔
      ∃ (l : Layout) (literal : Text), l.Lawful ∧ ¬ l.last.EndsInComment ∧
        source = l.text ++ ('"' : CodePoint) :: literal ∧ Token.scanString literal = none ∧
        l.tokens = ts := by
  constructor
  · intro h
    obtain ⟨pieces, after, rfl, hfit, happart, hafter⟩ := exists_pieces source
    rw [Tokens.ofText, scanOnto_textBefore hfit happart (endsSymbol_of_front hafter)] at h
    cases hfront : Token.front after with
    | done =>
      rw [Tokens.scanOnto_of_done hfront] at h
      cases h
    | unterminated =>
      rw [Tokens.scanOnto_of_unterminated hfront] at h
      obtain ⟨last, literal, rfl, hgap, hscan⟩ := Token.front_eq_unterminated_iff.mp hfront
      have hcomment : ¬ last.EndsInComment :=
        hgap.not_endsInComment (by simp [EndsLine, CodePoint.ofChar_inj])
      refine ⟨⟨pieces, last⟩, literal, ⟨hfit.congr last, happart, hgap.anywhere hcomment []⟩,
        hcomment, (textBefore_append _ _ _).symm, hscan, ?_⟩
      simpa [tokens] using (Tokens.mk.inj h).1
    | token t rest => exact absurd hfront (hafter t rest)
  · rintro ⟨l, literal, hl, hcomment, rfl, hscan, rfl⟩
    have hfront : Token.front (l.last ++ CodePoint.ofChar '"' :: literal) = .unterminated :=
      Token.front_eq_unterminated_iff.mpr ⟨_, _, rfl, hl.last.anywhere hcomment _, hscan⟩
    rw [Tokens.ofText, text, textBefore_append, scanOnto_textBefore (hl.pieces.congr _) hl.apart
      (endsSymbol_of_front (by simp [hfront])), Tokens.scanOnto_of_unterminated hfront]
    simp [tokens]

end Layout

/-! ### Streams -/

/-- Taken one by one, the tokens of a stream are the given ones. Then the stream is at its end, or
fails. -/
inductive TokenStream.Yields : TokenStream → List Token → Option ReadFailure → Prop
  | done {s s' : TokenStream} : s.advance = (.ok none, s') → Yields s [] none
  | failed {s s' : TokenStream} {failure : ReadFailure} : s.advance = (.error failure, s') →
      Yields s [] (some failure)
  | token {s s' : TokenStream} {t : Token} {ts : List Token} {failure : Option ReadFailure} :
      s.advance = (.ok (some t), s') → Yields s' ts failure → Yields s (t :: ts) failure

/-- A stream yields its tokens, and fails after them if the text was not scanned to its end. -/
theorem TokenStream.yields_iff {unread ts : List Token} {terminated : Bool}
    {failure : Option ReadFailure} :
    Yields ⟨none, unread, terminated⟩ ts failure ↔
      ts = unread ∧
        failure = if terminated then none else some (.malformed .unterminatedString) := by
  constructor
  · intro h
    induction unread generalizing ts with
    | nil =>
      cases h with
      | done hs => cases terminated <;> simp_all [advance]
      | failed hs => cases terminated <;> simp_all [advance]
      | token hs _ => cases terminated <;> simp [advance] at hs
    | cons t unread ih =>
      cases h with
      | done hs => simp [advance] at hs
      | failed hs => simp [advance] at hs
      | token hs hrest =>
        cases hs
        obtain ⟨rfl, rfl⟩ := ih hrest
        exact ⟨rfl, rfl⟩
  · rintro ⟨rfl, rfl⟩
    induction ts with
    | nil =>
      cases terminated with
      | true => exact .done rfl
      | false => exact .failed rfl
    | cons t ts ih => exact .token rfl ih

/-- The scanner takes apart just the texts that are rows of tokens and gaps, in the only way there
is. It fails at a string literal that is never closed, after the tokens in front of it. -/
theorem scanner_accepts_token_grammar (source : Text) :
    (∀ ts, (TokenStream.ofText source).Yields ts none ↔
      ∃ l : Layout, l.Lawful ∧ l.text = source ∧ l.tokens = ts) ∧
    (∀ l l' : Layout, l.Lawful → l'.Lawful → l.text = source → l'.text = source → l = l') ∧
    (∀ ts failure, (TokenStream.ofText source).Yields ts (some failure) ↔
      failure = .malformed .unterminatedString ∧
      ∃ (l : Layout) (remainder : Text), l.Lawful ∧ ¬ l.last.EndsInComment ∧
        source = l.text ++ remainder ∧ remainder.head? = some ('"' : CodePoint) ∧
        (∀ literal rest : Text, remainder = literal ++ rest → ¬ literal.IsLiteral) ∧
        l.tokens = ts) ∧
    Malformed.unterminatedString.message =
      Text.ofString "Unexpected character '\"' (unterminated string?)" := by
  refine ⟨fun ts => ?_, fun l l' hl hl' htext htext' => hl.unique hl' (htext.trans htext'.symm),
    fun ts failure => ?_, rfl⟩
  · rw [← Layout.tokens_terminated_iff, TokenStream.ofText, TokenStream.yields_iff]
    obtain ⟨tokens, terminated⟩ := Tokens.ofText source
    cases terminated <;> simp [eq_comm]
  · have hyields : (TokenStream.ofText source).Yields ts (some failure) ↔
        failure = .malformed .unterminatedString ∧ Tokens.ofText source = ⟨ts, false⟩ := by
      rw [TokenStream.ofText, TokenStream.yields_iff]
      obtain ⟨tokens, terminated⟩ := Tokens.ofText source
      cases terminated <;> simp [eq_comm, and_comm]
    rw [hyields, Layout.tokens_unterminated_iff]
    refine and_congr_right fun _ => ⟨?_, ?_⟩
    · rintro ⟨l, literal, hl, hcomment, hsource, hscan, htokens⟩
      exact ⟨l, _, hl, hcomment, hsource, rfl, Token.scanString_eq_none_iff.mp hscan, htokens⟩
    · rintro ⟨l, remainder, hl, hcomment, hsource, hhead, hliteral, htokens⟩
      obtain ⟨literal, rfl⟩ := List.head?_eq_some_iff.mp hhead
      exact ⟨l, literal, hl, hcomment, hsource, Token.scanString_eq_none_iff.mpr hliteral, htokens⟩

/-- A mark in a comment opens no literal, and a semicolon in a literal opens no comment. -/
example : Tokens.ofText "a;\"\n\";\"b" = ⟨[.symbol "a", .string ";", .symbol "b"], true⟩ := by
  decide +kernel

end RationalLisp
