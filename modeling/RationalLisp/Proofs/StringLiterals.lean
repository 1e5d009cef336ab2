import RationalLisp.Proofs.BigSteps
import RationalLisp.Proofs.ReadingPrograms
import RationalLisp.Proofs.TokenGrammar

/-!
# String literals

The scanner finds the end of a string literal, and the reader takes its body apart once more to find
the text that it stands for. Both see the same pieces: pairs of a backslash and a code point, and
code points on their own. So every text can be written as a literal that denotes it, and no body
that the scanner finds leaves a backslash without a partner.
-/

namespace RationalLisp

/-! ### Strings as values -/

namespace Value

@[simp] theorem toCodePoint?_ofCodePoint (c : CodePoint) :
    (ofCodePoint c).toCodePoint? = some c := by
  have hnum : ((c.val : Rat)).num = c.val := Rat.num_natCast c.val
  have hden : ((c.val : Rat)).den = 1 := Rat.den_natCast c.val
  simp [ofCodePoint, toCodePoint?, hnum, hden, c.isLt]

/-- The string of a text is decoded to that text. -/
@[simp] theorem toText?_ofText (t : Text) : (ofText t).toText? = some t := by
  rw [toText?, ofText, toList?_ofList, Option.bind_some]
  induction t with
  | nil => rfl
  | cons c t ih => simp [List.mapM_cons, ih]

end Value

/-! ### Pieces of a body -/

/-- A piece of the body of a string literal: a backslash with the code point after it, or a code
point that is neither a backslash nor the mark. -/
inductive LiteralPiece where
  | escape (c : CodePoint)
  | plain (c : CodePoint) (hescape : c ≠ ('\\' : CodePoint)) (hmark : c ≠ ('"' : CodePoint))
  deriving DecidableEq

namespace LiteralPiece

/-- The escaped code points that stand for others, and what they stand for. -/
def escapes : List (CodePoint × CodePoint) :=
  [('n', '\n'), ('t', '\t'), ('r', '\r'), ('"', '"'), ('\\', '\\')]

/-- The source text of a piece. -/
def text : LiteralPiece → Text
  | escape c => [('\\' : CodePoint), c]
  | plain c _ _ => [c]

/-- The code point that a piece denotes. -/
def value : LiteralPiece → CodePoint
  | escape c => (escapes.lookup c).getD c
  | plain c _ _ => c

/-- The piece in which a code point stands for itself. -/
def ofCodePoint (c : CodePoint) : LiteralPiece :=
  if hescape : c = ('\\' : CodePoint) then .escape c
  else if hmark : c = ('"' : CodePoint) then .escape c
  else .plain c hescape hmark

theorem value_escape (c : CodePoint) : (escape c).value = Reader.unescaped c := by
  simp only [value, escapes, Reader.unescaped, List.lookup_cons, List.lookup_nil]
  grind

@[simp] theorem value_ofCodePoint (c : CodePoint) : (ofCodePoint c).value = c := by
  unfold ofCodePoint
  split
  · rename_i hc
    subst hc
    rfl
  split
  · rename_i hc
    subst hc
    rfl
  · rfl

/-- Where a piece ends can be told from the piece. -/
theorem eq_of_text_append {p q : LiteralPiece} {rest rest' : Text}
    (h : p.text ++ rest = q.text ++ rest') : p = q ∧ rest = rest' := by
  cases p with
  | escape c =>
    cases q with
    | escape d =>
      obtain ⟨rfl, rfl⟩ : c = d ∧ rest = rest' := by simpa [text] using h
      exact ⟨rfl, rfl⟩
    | plain d hescape hmark => exact absurd (List.cons.inj h).1.symm hescape
  | plain c hescape hmark =>
    cases q with
    | escape d => exact absurd (List.cons.inj h).1 hescape
    | plain d _ _ =>
      obtain ⟨rfl, rfl⟩ := List.cons.inj h
      exact ⟨rfl, rfl⟩

theorem text_ne_nil (p : LiteralPiece) : p.text ≠ [] := by
  cases p with
  | escape c => exact List.cons_ne_nil _ _
  | plain c _ _ => exact List.cons_ne_nil _ _

/-- A body falls into pieces in one way. -/
theorem flatMap_text_inj {pieces others : List LiteralPiece}
    (h : pieces.flatMap text = others.flatMap text) : pieces = others := by
  induction pieces generalizing others with
  | nil =>
    cases others with
    | nil => rfl
    | cons q others => exact absurd (List.append_eq_nil_iff.mp h.symm).1 q.text_ne_nil
  | cons p pieces ih =>
    cases others with
    | nil => exact absurd (List.append_eq_nil_iff.mp h).1 p.text_ne_nil
    | cons q others =>
      rw [List.flatMap_cons, List.flatMap_cons] at h
      obtain ⟨rfl, hrest⟩ := eq_of_text_append h
      rw [ih hrest]

end LiteralPiece

/-- What can stand between the marks of a string literal is a row of pieces. -/
theorem Text.isLiteralBody_iff {body : Text} :
    body.IsLiteralBody ↔ ∃ pieces : List LiteralPiece, pieces.flatMap LiteralPiece.text = body := by
  constructor
  · intro h
    induction h with
    | nil => exact ⟨[], rfl⟩
    | escape c _ ih =>
      obtain ⟨pieces, rfl⟩ := ih
      exact ⟨.escape c :: pieces, rfl⟩
    | plain hescape hmark _ ih =>
      obtain ⟨pieces, rfl⟩ := ih
      exact ⟨.plain _ hescape hmark :: pieces, rfl⟩
  · rintro ⟨pieces, rfl⟩
    induction pieces with
    | nil => exact .nil
    | cons p pieces ih =>
      cases p with
      | escape c => exact .escape c ih
      | plain c hescape hmark => exact .plain hescape hmark ih

/-! ### Reading bodies -/

namespace Reader

/-- The text that a body stands for, if `lone` is what comes of a backslash at its very end that has
nothing to escape. -/
def unescapeOr (lone : Text) : Text → Text
  | [] => []
  | [c] => if c = ('\\' : CodePoint) then lone else [c]
  | c :: d :: rest =>
    if c = '\\' then unescaped d :: unescapeOr lone rest else c :: unescapeOr lone (d :: rest)

/-- The reader keeps a backslash that has nothing to escape. -/
theorem unescapeOr_backslash (body : Text) :
    unescapeOr [('\\' : CodePoint)] body = unescape body := by
  fun_induction unescape body with
  | case1 => rfl
  | case2 c =>
    rw [unescapeOr]
    split
    · rename_i hc
      rw [hc]
    · rfl
  | case3 d rest ih => rw [unescapeOr, if_pos rfl, ih]
  | case4 c d rest hc ih => rw [unescapeOr, if_neg hc, ih]

/-- A body is read piece by piece, and no backslash is left over. -/
theorem unescapeOr_flatMap (lone : Text) (pieces : List LiteralPiece) :
    unescapeOr lone (pieces.flatMap LiteralPiece.text) = pieces.map LiteralPiece.value := by
  induction pieces with
  | nil => rfl
  | cons p pieces ih =>
    rw [List.flatMap_cons, List.map_cons, ← ih]
    cases p with
    | escape c =>
      rw [LiteralPiece.value_escape]
      exact if_pos rfl
    | plain c hescape hmark =>
      -- what comes next may be nothing or the start of another piece
      cases hrest : pieces.flatMap LiteralPiece.text with
      | nil => exact if_neg hescape
      | cons d rest => exact if_neg hescape

theorem unescape_flatMap (pieces : List LiteralPiece) :
    unescape (pieces.flatMap LiteralPiece.text) = pieces.map LiteralPiece.value := by
  rw [← unescapeOr_backslash, unescapeOr_flatMap]

end Reader

/-! ### Literals in source text -/

/-- Tokens that are found in source text are well formed. -/
theorem Tokens.wellFormed_of_mem_scanOnto {seen : List Token} {source : Text} {t : Token}
    (hseen : ∀ t ∈ seen, t.WellFormed) (h : t ∈ (scanOnto seen source).tokens) : t.WellFormed := by
  fun_induction scanOnto seen source with
  | case1 => exact hseen t (List.mem_reverse.mp h)
  | case2 => exact hseen t (List.mem_reverse.mp h)
  | case3 seen source found rest hfront ih =>
    refine ih (List.forall_mem_cons.mpr ⟨?_, hseen⟩) h
    exact (Token.text_of_front hfront).1

namespace Text

/-- The text with a backslash in front of every backslash and of every mark. -/
def escaped (t : Text) : Text :=
  t.flatMap fun c =>
    if c = ('\\' : CodePoint) ∨ c = ('"' : CodePoint) then [('\\' : CodePoint), c] else [c]

/-- The string literal that is to denote the text. -/
def literal (t : Text) : Text := ('"' : CodePoint) :: (t.escaped ++ [('"' : CodePoint)])

theorem escaped_eq_flatMap (t : Text) :
    t.escaped = (t.map LiteralPiece.ofCodePoint).flatMap LiteralPiece.text := by
  rw [escaped, List.flatMap_map]
  congr 1
  funext c
  unfold LiteralPiece.ofCodePoint
  by_cases hescape : c = CodePoint.ofChar '\\'
  · rw [if_pos (.inl hescape), dif_pos hescape]
    rfl
  by_cases hmark : c = CodePoint.ofChar '"'
  · rw [if_pos (.inr hmark), dif_neg hescape, dif_pos hmark]
    rfl
  · rw [if_neg (not_or.mpr ⟨hescape, hmark⟩), dif_neg hescape, dif_neg hmark]
    rfl

theorem isLiteralBody_escaped (t : Text) : t.escaped.IsLiteralBody :=
  isLiteralBody_iff.mpr ⟨_, t.escaped_eq_flatMap.symm⟩

@[simp] theorem unescape_escaped (t : Text) : Reader.unescape t.escaped = t := by
  rw [escaped_eq_flatMap, Reader.unescape_flatMap, List.map_map]
  exact (List.map_congr_left fun c _ => LiteralPiece.value_ofCodePoint c).trans (List.map_id t)

/-- The literal of a text is a single token. -/
theorem tokens_literal (t : Text) : Tokens.ofText t.literal = ⟨[.string t.escaped], true⟩ := by
  have hfront : Token.front t.literal = .token (.string t.escaped) [] := by
    have hform : (Token.string t.escaped).WellFormed := t.isLiteralBody_escaped
    have hopen : (Token.string t.escaped).isOpenEnded = true → Text.EndsSymbol [] :=
      fun h => absurd h Bool.false_ne_true
    have hfront := Token.front_text hform hopen
    rwa [List.append_nil] at hfront
  rw [Tokens.ofText, Tokens.scanOnto_of_token hfront, Tokens.scanOnto_of_done rfl]
  rfl

/-- The literal of a text is read as the quotation of its string. -/
theorem ofSource_literal (t : Text) (room : Nat) :
    Value.ofSource room t.literal = .ok (Value.ofText t).quoted := by
  have hderives : Phrase.Derives room ⟨[.string t.escaped], (Value.ofText t).quoted⟩ := by
    have hstring := Phrase.Derives.string (n := room) t.escaped
    rwa [unescape_escaped] at hstring
  rw [Value.ofSource, Program.ofText, tokens_literal]
  exact Program.single_readOnto_iff.mpr ⟨hderives, rfl⟩

end Text

/-- String literals denote their text. Every text has a literal that is read as the quotation of its
string and evaluated to that string; and every literal in source text falls into pieces in just one
way, and is read piece by piece, whatever the reader would do with a backslash at the end. -/
theorem string_literals_denote :
    (∀ t : Text,
      (∀ room, Value.ofSource room t.literal = .ok (Value.ofText t).quoted) ∧
      (∀ host depth s, s.Provides "quote" (.form .quote) →
        Run.eval host (depth + 2) (Value.ofText t).quoted s = .ok (.ofText t) s) ∧
      (Value.ofText t).toText? = some t) ∧
    (∀ source body : Text, .string body ∈ (Tokens.ofText source).tokens →
      ∃ pieces : List LiteralPiece, pieces.flatMap LiteralPiece.text = body ∧
        (∀ others : List LiteralPiece, others.flatMap LiteralPiece.text = body → others = pieces) ∧
        Reader.unescape body = pieces.map LiteralPiece.value ∧
        ∀ lone, Reader.unescapeOr lone body = Reader.unescape body) := by
  constructor
  · intro t
    exact ⟨t.ofSource_literal, fun host depth s hquote => Run.eval_quoted hquote depth (.ofText t),
      Value.toText?_ofText t⟩
  · intro source body hbody
    have hform : (Token.string body).WellFormed :=
      Tokens.wellFormed_of_mem_scanOnto (by simp) hbody
    obtain ⟨pieces, rfl⟩ := Text.isLiteralBody_iff.mp hform
    refine ⟨pieces, rfl, fun others => LiteralPiece.flatMap_text_inj,
      Reader.unescape_flatMap pieces, fun lone => ?_⟩
    rw [Reader.unescapeOr_flatMap, Reader.unescape_flatMap]

namespace StringLiterals

/-- A store in which expressions can be quoted. -/
def quoting : Store where
  frames := #[[("quote", .proc 0)]]
  procedures := #[.ofPrimitive (.form .quote)]
  stack := [0]
  pending := []
  output := .empty
  journal := .empty

end StringLiterals

open StringLiterals

/-- A backslash and a mark at the end of a text, and a row of backslashes before a closing mark. -/
theorem string_literals_denote_backslashes :
    Run.eval .bare 2 (Value.ofText "\\\"").quoted quoting = .ok (.ofText "\\\"") quoting ∧
    .string "\\\\\\n" ∈ (Tokens.ofText "x\"\\\\\\n\"").tokens ∧
    ∀ lone, Reader.unescapeOr lone "\\\\\\n" = Reader.unescape "\\\\\\n" := by
  have hquote : quoting.Provides "quote" (.form .quote) := ⟨0, rfl, rfl⟩
  have hmem : .string "\\\\\\n" ∈ (Tokens.ofText "x\"\\\\\\n\"").tokens := by decide +kernel
  obtain ⟨-, -, -, -, hlone⟩ := string_literals_denote.2 _ _ hmem
  exact ⟨(string_literals_denote.1 "\\\"").2.1 .bare 0 quoting hquote, hmem, hlone⟩

end RationalLisp
