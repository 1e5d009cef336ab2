import RationalLisp.Text.Printable

/-! # Quoted and spelled text

Quoted text stands between quotation marks on one line, with escapes for the mark itself, the
backslash and everything that is not printable. Spelled text has escapes for surrogates only. -/

namespace RationalLisp.Text

/-- A hexadecimal digit. -/
def hexDigit (n : Nat) : CodePoint :=
  if n < 10 then .ofNat (0x30 + n) else .ofNat (0x61 + (n - 10))

/-- The last `width` hexadecimal digits of a number. -/
def hexDigits : Nat → Nat → Text
  | 0, _ => []
  | width + 1, n => hexDigits width (n / 16) ++ [hexDigit (n % 16)]

/-- A code point in quoted text. -/
def quotedCodePoint (mark c : CodePoint) : Text :=
  if c = mark ∨ c = '\\' then ['\\', c]
  else if c = '\t' then "\\t"
  else if c = '\n' then "\\n"
  else if c = '\r' then "\\r"
  else if c.isPrintable then [c]
  else if c.val < 0x100 then ("\\x" : Text) ++ hexDigits 2 c.val
  else if c.val < 0x10000 then ("\\u" : Text) ++ hexDigits 4 c.val
  else ("\\U" : Text) ++ hexDigits 8 c.val

/-- Single marks, unless the text holds single marks and no double ones. -/
def quotationMark (t : Text) : CodePoint :=
  if t.contains ('\'' : CodePoint) && !t.contains ('"' : CodePoint) then '"' else '\''

/-- A text in quotation marks. -/
def quoted (t : Text) : Text :=
  let mark := t.quotationMark
  mark :: (t.flatMap (quotedCodePoint mark) ++ [mark])

/-- A text with an escape for each surrogate, as it is written where nothing may be refused. -/
def spelled (t : Text) : Text :=
  t.flatMap fun c => if c.isSurrogate then ("\\u" : Text) ++ hexDigits 4 c.val else [c]

end RationalLisp.Text
