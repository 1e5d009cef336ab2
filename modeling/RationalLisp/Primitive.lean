import RationalLisp.Text

/-! # Primitives

The names, argument counts and argument policies of the procedures that every run starts with.
Builtins work on values they are given; forms reach into evaluation itself. -/

namespace RationalLisp

/-- How many operands a procedure takes. -/
inductive Arity where
  | exactly (count : Nat)
  | variadic
  deriving DecidableEq

namespace Arity

/-- Whether a call with `count` operands fits. -/
def accepts : Arity → Nat → Bool
  | .exactly n, count => n = count
  | .variadic, _ => true

/-- Arities as integers: `-1` stands for any number of operands, and nothing below it is used. -/
def ofInt? (n : Int) : Option Arity :=
  if n = -1 then some .variadic
  else if 0 ≤ n then some (.exactly n.toNat)
  else none

/-- The integer that stands for an arity. -/
def toInt : Arity → Int
  | .exactly n => n
  | .variadic => -1

end Arity

/-- Order comparisons of numbers. -/
inductive Comparison where
  | gt | ge | lt | le
  deriving DecidableEq

/-- The four operations of rational arithmetic. -/
inductive Operation where
  | add | sub | mul | div
  deriving DecidableEq

/-- The elementary functions of one number. -/
inductive Elementary where
  | exp | sin | cos | tan | asin | acos | atan
  deriving DecidableEq

/-- The kinds of value that a predicate tells apart. -/
inductive Kind where
  | procedure | number | string | atom | null | list | pair
  deriving DecidableEq

/-- Procedures on evaluated operands that leave the scopes alone. -/
inductive Builtin where
  | compose
  | equal
  | compare (c : Comparison)
  | arith (o : Operation)
  | log
  | elementary (f : Elementary)
  | numerator
  | denominator
  | toStr
  | toAtom
  | cons
  | car
  | cdr
  | print
  | test (k : Kind)
  deriving DecidableEq

/-- The four ways to make a closure: are the parameters and the body computed, and does the
closure evaluate its operands? -/
structure LambdaKind where
  computed : Bool
  evaluatesOperands : Bool
  deriving DecidableEq

/-- Procedures that evaluate expressions, or read or change the scopes. -/
inductive Form where
  | choose
  | quote
  | lambda (k : LambdaKind)
  | evaluate
  | load
  | sequence
  | read
  | bindInner
  | bindParent
  deriving DecidableEq

/-- The procedures that every run starts with. -/
inductive Primitive where
  | builtin (b : Builtin)
  | form (f : Form)
  deriving DecidableEq

/-- The name a comparison is called by. -/
def Comparison.name : Comparison → String
  | .gt => ">"
  | .ge => ">="
  | .lt => "<"
  | .le => "<="

/-- The name an operation is called by. -/
def Operation.name : Operation → String
  | .add => "+"
  | .sub => "-"
  | .mul => "*"
  | .div => "/"

/-- The name an elementary function is called by. -/
def Elementary.name : Elementary → String
  | .exp => "exp"
  | .sin => "sin"
  | .cos => "cos"
  | .tan => "tan"
  | .asin => "asin"
  | .acos => "acos"
  | .atan => "atan"

/-- The name a predicate is called by. -/
def Kind.name : Kind → String
  | .procedure => "proc?"
  | .number => "number?"
  | .string => "string?"
  | .atom => "atom?"
  | .null => "null?"
  | .list => "list?"
  | .pair => "pair?"

namespace Builtin

/-- The name a builtin is called by. -/
def name : Builtin → String
  | compose => "."
  | equal => "="
  | compare c => c.name
  | arith o => o.name
  | log => "log"
  | elementary f => f.name
  | numerator => "numerator"
  | denominator => "denominator"
  | toStr => "to-str"
  | toAtom => "to-atom"
  | cons => "cons"
  | car => "car"
  | cdr => "cdr"
  | print => "print"
  | test k => k.name

/-- The number of operands of a builtin. -/
def operandCount : Builtin → Nat
  | compose | equal | compare _ | arith _ | log | cons => 2
  | elementary _ | numerator | denominator | toStr | toAtom | car | cdr | print | test _ => 1

/-- All builtins, in the order in which they enter the global frame. -/
def all : List Builtin :=
  [compose, equal, compare .gt, compare .ge, compare .lt, compare .le,
    arith .add, arith .sub, arith .mul, arith .div, log,
    elementary .exp, elementary .sin, elementary .cos, elementary .tan,
    elementary .asin, elementary .acos, elementary .atan,
    numerator, denominator, toStr, toAtom, cons, car, cdr, print,
    test .procedure, test .number, test .string, test .atom, test .null, test .list, test .pair]

end Builtin

/-- The name of a member of the lambda family. -/
def LambdaKind.name : LambdaKind → String
  | ⟨false, true⟩ => "lambda"
  | ⟨false, false⟩ => "lambda!"
  | ⟨true, true⟩ => "mk-lambda"
  | ⟨true, false⟩ => "mk-lambda!"

namespace Form

/-- The name a form is called by. -/
def name : Form → String
  | choose => "if"
  | quote => "quote"
  | lambda k => k.name
  | evaluate => "evaluate"
  | load => "import"
  | sequence => "begin"
  | read => "read"
  | bindInner => "let!"
  | bindParent => "let-parent!"

/-- Whether the operands of a form are evaluated before it runs. -/
def evaluatesOperands : Form → Bool
  | choose | quote => false
  | lambda k => k.computed
  | evaluate | load | sequence | read | bindInner | bindParent => true

/-- The number of operands of a form. -/
def arity : Form → Arity
  | choose => .exactly 3
  | lambda _ | bindInner | bindParent => .exactly 2
  | quote | evaluate | load | read => .exactly 1
  | sequence => .variadic

/-- All forms, in the order in which they enter the global frame. -/
def all : List Form :=
  [choose, quote, lambda ⟨false, true⟩, lambda ⟨false, false⟩, lambda ⟨true, true⟩,
    lambda ⟨true, false⟩, evaluate, load, sequence, read, bindInner, bindParent]

end Form

namespace Primitive

/-- The name a primitive is called by. -/
def name : Primitive → Text
  | builtin b => b.name
  | form f => f.name

/-- Whether the operands of a primitive are evaluated before it runs. -/
def evaluatesOperands : Primitive → Bool
  | builtin _ => true
  | form f => f.evaluatesOperands

/-- The number of operands of a primitive. -/
def arity : Primitive → Arity
  | builtin b => .exactly b.operandCount
  | form f => f.arity

/-- All primitives, in the order in which they enter the global frame. -/
def all : List Primitive := Builtin.all.map .builtin ++ Form.all.map .form

end Primitive

end RationalLisp
