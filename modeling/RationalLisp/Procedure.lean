import RationalLisp.Primitive
import RationalLisp.Value

/-! # Procedures

What a procedure identifier stands for: how many operands it takes, whether they are evaluated,
its name, and the code that runs on them. -/

namespace RationalLisp

/-- The parameters of a closure. A variadic closure binds the list of its operands to `args`. -/
inductive Params where
  | fixed (names : List Text)
  | variadic
  deriving DecidableEq

namespace Params

/-- The parameter that stands for any number of operands. -/
def marker : Text := "*"

/-- The name to which a variadic closure binds its operands. -/
def restName : Text := "args"

/-- The parameters that a list of names denotes. -/
def ofNames (names : List Text) : Params :=
  if names = [marker] then .variadic else .fixed names

/-- The number of operands that parameters ask for. -/
def arity : Params → Arity
  | .fixed names => .exactly names.length
  | .variadic => .variadic

end Params

/-- What runs when a procedure is called. A composition keeps the name and arity of its outer
part, whose single operand is checked when the inner part has answered. Code that only lists its
operands comes from outside: nothing that a program does makes it. -/
inductive Code where
  | primitive (p : Primitive)
  | closure (params : Params) (body : Value) (captured : List FrameId)
  | composition (outerName : Text) (outerArity : Arity) (outer inner : Code)
  | operands
  deriving DecidableEq

/-- A procedure: its argument policy, arity, name and code. -/
structure Procedure where
  evaluatesOperands : Bool
  arity : Arity
  name : Text
  code : Code
  deriving DecidableEq

namespace Procedure

/-- The name of procedures that are given none. -/
def defaultName : Text := "lambda"

/-- The procedure of a primitive. -/
def ofPrimitive (p : Primitive) : Procedure :=
  ⟨p.evaluatesOperands, p.arity, p.name, .primitive p⟩

/-- The closure over the captured frames. -/
def closure (evaluatesOperands : Bool) (params : Params) (body : Value)
    (captured : List FrameId) : Procedure :=
  ⟨evaluatesOperands, params.arity, defaultName, .closure params body captured⟩

/-- The composition that runs `inner` and hands its result to `outer`. -/
def compose (outer inner : Procedure) : Procedure :=
  ⟨inner.evaluatesOperands, inner.arity, outer.name ++ ([('.' : CodePoint)] : Text) ++ inner.name,
    .composition outer.name outer.arity outer.code inner.code⟩

instance : Inhabited Procedure := ⟨⟨true, .variadic, defaultName, .operands⟩⟩

/-- The procedure that answers with the list of its operands. It stands for the procedures that a
user of the library can make, and no program can. -/
def ofOperands (evaluatesOperands : Bool) (arity : Arity) (name : Text) : Procedure :=
  ⟨evaluatesOperands, arity, name, .operands⟩

end Procedure

/-- The procedures that have been made so far; an identifier is a place in this table. -/
abbrev Procedures := Array Procedure

/-- The procedure of an identifier. Identifiers are handed out only for places in the table. -/
def Procedures.get (table : Procedures) (id : ProcId) : Procedure :=
  table.getD id default

end RationalLisp
