import RationalLisp.Failure
import RationalLisp.Numeral
import RationalLisp.Token
import RationalLisp.Value.List

/-! # Reader

Expressions are read off a list of tokens one token at a time. Forms whose beginning has been
read wait on a stack, innermost first; a complete expression is handed to the innermost of them.

## Implementation notes

The stack makes reading a plain recursion over the tokens. Its height is the nesting of the
source text, and `room` says how much higher it may grow. -/

namespace RationalLisp

/-- The ways in which reading can fail. -/
inductive ReadFailure where
  | malformed (fault : Malformed)
  | tooManyDigits
  | outOfDepth
  deriving DecidableEq

/-- A reading failure as a failure of the run that reads. -/
def ReadFailure.toFailure : ReadFailure → Failure
  | malformed fault => .error (.malformed fault)
  | tooManyDigits => .tooManyDigits
  | outOfDepth => .outOfDepth

namespace Reader

/-- The code point that an escaped one stands for. -/
def unescaped (c : CodePoint) : CodePoint :=
  if c = 'n' then '\n' else if c = 't' then '\t' else if c = 'r' then '\r' else c

/-- The text that the body of a string literal stands for. -/
def unescape : Text → Text
  | [] => []
  | [c] => [c]
  | c :: d :: rest =>
    if c = '\\' then unescaped d :: unescape rest else c :: unescape (d :: rest)

/-- The value of a symbol: a boolean, a number or an atom. -/
def ofSymbol (name : Text) : Except ReadFailure Value :=
  if name = Text.ofString "#t" then .ok (.bool true)
  else if name = Text.ofString "#f" then .ok (.bool false)
  else match Numeral.ofText? name with
    | none => .ok (.atom name)
    | some numeral =>
      if ¬ numeral.Legible then .error .tooManyDigits
      else if numeral.overZero then .error (.malformed (.zeroDenominator name))
      else .ok (.num numeral.value)

/-- A form whose beginning has been read. Its items are kept latest first. -/
inductive Open where
  | quoted
  | list (items : List Value)
  | tail (items : List Value)
  deriving DecidableEq

/-- What comes next: an expression for the innermost open form, or the bracket that closes a
dotted list. -/
inductive Wanted where
  | expression (opened : List Open)
  | close (items : List Value) (tail : Value) (opened : List Open)
  deriving DecidableEq

/-- What one token leads to. A failure tells whether the token has been taken. -/
inductive Step where
  | more (room : Nat) (wanted : Wanted)
  | done (v : Value)
  | failed (failure : ReadFailure) (taken : Bool)

/-- Hand a complete expression to the innermost open form. -/
def deliver (room : Nat) (v : Value) : List Open → Step
  | [] => .done v
  | .quoted :: opened => deliver (room + 1) v.quoted opened
  | .list items :: opened => .more room (.expression (.list (v :: items) :: opened))
  | .tail items :: opened => .more room (.close items v opened)

/-- Begin a form, if there is room for it. -/
def begin (room : Nat) (form : Open) (opened : List Open) : Step :=
  match room with
  | 0 => .failed .outOfDepth true
  | room + 1 => .more room (.expression (form :: opened))

/-- A symbol where an expression is wanted. After the first item of a list, a lone point
announces the tail of the list. -/
def symbol (room : Nat) (name : Text) : List Open → Step
  | .list (item :: items) :: opened =>
    if name = Text.ofString "." then .more room (.expression (.tail (item :: items) :: opened))
    else match ofSymbol name with
      | .ok v => deliver room v (.list (item :: items) :: opened)
      | .error failure => .failed failure true
  | opened =>
    match ofSymbol name with
    | .ok v => deliver room v opened
    | .error failure => .failed failure true

/-- Take one token. -/
def step (room : Nat) : Wanted → Token → Step
  | .close items tail opened, .rparen =>
    deliver (room + 1) (Value.chain items.reverse tail) opened
  | .close .., _ => .failed (.malformed .dottedTailNotClosed) false
  | .expression opened, .symbol name => symbol room name opened
  | .expression opened, .string body => deliver room (Value.ofText (unescape body)).quoted opened
  | .expression opened, .quote => begin room .quoted opened
  | .expression opened, .lparen => begin room (.list []) opened
  | .expression (.list items :: opened), .rparen =>
    deliver (room + 1) (Value.ofList items.reverse) opened
  | .expression _, .rparen => .failed (.malformed .unexpectedClose) false

/-- What is missing when the tokens end; nothing if no form is open. -/
def missing? : Wanted → Option Malformed
  | .expression [] => none
  | .expression (.quoted :: _) => some .quoteWithoutExpression
  | .expression (.list _ :: _) => some .unmatchedOpen
  | .expression (.tail _ :: _) => some .dottedTailNotClosed
  | .close .. => some .dottedTailNotClosed

/-- The outcome of reading one expression, with the tokens that are left. -/
inductive Reading where
  | finished
  | expression (v : Value) (rest : List Token)
  | failed (failure : ReadFailure) (rest : List Token)
  deriving DecidableEq

/-- The outcome at the end of the tokens. Source text that ends inside a string literal fails
there, whatever else is missing. -/
def atEnd (terminated : Bool) (wanted : Wanted) : Reading :=
  if terminated then
    match missing? wanted with
    | none => .finished
    | some fault => .failed (.malformed fault) []
  else .failed (.malformed .unterminatedString) []

/-- Go on reading one expression. -/
def readFrom (terminated : Bool) (room : Nat) (wanted : Wanted) : List Token → Reading
  | [] => atEnd terminated wanted
  | t :: rest =>
    match step room wanted t with
    | .more room wanted => readFrom terminated room wanted rest
    | .done v => .expression v rest
    | .failed failure taken => .failed failure (if taken then rest else t :: rest)

theorem length_readFrom_lt {terminated : Bool} {room : Nat} {wanted : Wanted}
    {tokens rest : List Token} {v : Value}
    (h : readFrom terminated room wanted tokens = .expression v rest) :
    rest.length < tokens.length := by
  induction tokens generalizing room wanted with
  | nil =>
    simp only [readFrom, atEnd] at h
    split at h
    · split at h <;> simp at h
    · simp at h
  | cons t tokens ih =>
    simp only [readFrom] at h
    split at h
    · exact Nat.lt_succ_of_lt (ih h)
    · simp_all
    · simp at h

end Reader

/-- The expressions of source text up to its end or its first fault. -/
structure Program where
  exprs : List Value
  fault : Option ReadFailure
  deriving DecidableEq

namespace Program

/-- The expressions after those already read, which are given latest first. -/
def readOnto (terminated : Bool) (room : Nat) (seen : List Value) (tokens : List Token) : Program :=
  match _h : Reader.readFrom terminated room (.expression []) tokens with
  | .finished => ⟨seen.reverse, none⟩
  | .failed failure _ => ⟨seen.reverse, some failure⟩
  | .expression v rest => readOnto terminated room (v :: seen) rest
termination_by tokens.length
decreasing_by exact Reader.length_readFrom_lt _h

/-- The expressions of source text, each nested at most `room` deep. -/
def ofText (room : Nat) (source : Text) : Program :=
  let tokens := Tokens.ofText source
  readOnto tokens.terminated room [] tokens.tokens

/-- The expression of a program that holds exactly one. -/
def single (p : Program) : Except ReadFailure Value :=
  match p.fault, p.exprs with
  | some failure, _ => .error failure
  | none, [v] => .ok v
  | none, vs => .error (.malformed (.notOneExpression vs.length))

end Program

/-- The expression that source text holds. -/
def Value.ofSource (room : Nat) (source : Text) : Except ReadFailure Value :=
  (Program.ofText room source).single

end RationalLisp
