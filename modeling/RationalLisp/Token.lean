import RationalLisp.Text.Blank

/-! # Tokens

The words of source text. Gaps between tokens are blanks and comments; a string literal keeps its
escapes as they are written. -/

namespace RationalLisp

/-- A word of source text. A string literal is its body, without the enclosing marks. -/
inductive Token where
  | quote
  | lparen
  | rparen
  | string (body : Text)
  | symbol (name : Text)
  deriving DecidableEq

namespace CodePoint

/-- The code points that end a symbol without being blank. -/
def delimiters : List CodePoint := ['(', ')', '\'', '"', ';']

/-- The code points of symbols. -/
def isSymbol (c : CodePoint) : Bool := !c.isBlank && !delimiters.contains c

end CodePoint

namespace Token

/-- The source text of a token. -/
def text : Token → Text
  | quote => "'"
  | lparen => "("
  | rparen => ")"
  | string body => ('"' : CodePoint) :: (body ++ [('"' : CodePoint)])
  | symbol name => name

/-- What is left after a gap. The flag tells whether the gap is inside a comment, which goes on to
the end of its line. -/
def dropGap : Bool → Text → Text
  | _, [] => []
  | false, c :: rest =>
    if c.isBlank then dropGap false rest
    else if c = ';' then dropGap true rest
    else c :: rest
  | true, c :: rest => dropGap (c ≠ '\n') rest

/-- The body of a string literal after its opening mark, and what follows the closing one. A
backslash takes the next code point with it, whatever it is. -/
def scanString : Text → Option (Text × Text)
  | [] => none
  | c :: rest =>
    if c = '"' then some ([], rest)
    else if c = '\\' then
      match rest with
      | [] => none
      | escaped :: rest => (scanString rest).map fun (body, after) => (c :: escaped :: body, after)
    else (scanString rest).map fun (body, after) => (c :: body, after)

/-- What stands at the front of source text. -/
inductive Front where
  /-- Nothing but a gap. -/
  | done
  /-- A string literal without its closing mark. -/
  | unterminated
  /-- A token and the source text after it. -/
  | token (t : Token) (rest : Text)

/-- The first token of source text. -/
def front (source : Text) : Front :=
  match dropGap false source with
  | [] => .done
  | c :: rest =>
    if c = '\'' then .token quote rest
    else if c = '(' then .token lparen rest
    else if c = ')' then .token rparen rest
    else if c = '"' then
      match scanString rest with
      | none => .unterminated
      | some (body, after) => .token (string body) after
    else .token (symbol (c :: rest.takeWhile CodePoint.isSymbol)) (rest.dropWhile CodePoint.isSymbol)

theorem length_dropGap_le (comment : Bool) (source : Text) :
    (dropGap comment source).length ≤ source.length := by
  fun_induction dropGap comment source with
  | case1 => simp
  | case2 c rest h ih => simpa using Nat.le_succ_of_le ih
  | case3 rest h ih => simpa using Nat.le_succ_of_le ih
  | case4 => simp
  | case5 c rest ih => simpa using Nat.le_succ_of_le ih

theorem length_scanString_lt {source body after : Text}
    (h : scanString source = some (body, after)) : after.length < source.length := by
  fun_induction scanString source generalizing body with
  | case1 => simp at h
  | case2 rest => simp_all
  | case3 => simp at h
  | case4 escaped rest _ ih =>
    obtain ⟨⟨b, a⟩, hb, hba⟩ := Option.map_eq_some_iff.1 h
    simp only [Prod.mk.injEq] at hba
    have := ih (hba.2 ▸ hb)
    simp only [List.length_cons]
    omega
  | case5 c rest h1 h2 ih =>
    obtain ⟨⟨b, a⟩, hb, hba⟩ := Option.map_eq_some_iff.1 h
    simp only [Prod.mk.injEq] at hba
    have := ih (hba.2 ▸ hb)
    simp only [List.length_cons]
    omega

theorem length_dropWhile_le (p : CodePoint → Bool) (t : Text) :
    (t.dropWhile p).length ≤ t.length :=
  (List.dropWhile_sublist p).length_le

theorem length_rest_lt {s t : Token} {after rest : Text} {n : Nat}
    (h : Front.token s after = .token t rest) (hn : after.length < n) : rest.length < n := by
  cases h
  exact hn

/-- Every token takes some of the source text. -/
theorem length_front_lt {source rest : Text} {t : Token} (h : front source = .token t rest) :
    rest.length < source.length := by
  have hgap := length_dropGap_le false source
  rw [front] at h
  split at h
  · simp at h
  · rename_i c after heq
    rw [heq, List.length_cons] at hgap
    split at h
    · exact length_rest_lt h (by omega)
    split at h
    · exact length_rest_lt h (by omega)
    split at h
    · exact length_rest_lt h (by omega)
    split at h
    · split at h
      · simp at h
      · rename_i hscan
        have := length_scanString_lt hscan
        exact length_rest_lt h (by omega)
    · have := length_dropWhile_le CodePoint.isSymbol after
      exact length_rest_lt h (by omega)

end Token

/-- The tokens of source text, up to its end or to an unterminated string literal. -/
structure Tokens where
  tokens : List Token
  terminated : Bool
  deriving DecidableEq

namespace Tokens

/-- The tokens of source text after those already seen, which are given latest first. -/
def scanOnto (seen : List Token) (source : Text) : Tokens :=
  match _h : Token.front source with
  | .done => ⟨seen.reverse, true⟩
  | .unterminated => ⟨seen.reverse, false⟩
  | .token t rest => scanOnto (t :: seen) rest
termination_by source.length
decreasing_by exact Token.length_front_lt _h

/-- The tokens of source text. -/
def ofText (source : Text) : Tokens := scanOnto [] source

end Tokens

end RationalLisp
