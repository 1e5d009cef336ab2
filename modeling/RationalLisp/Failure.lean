import RationalLisp.Text.Decimal

/-! # Failures

The ways in which reading and running a program can end without a value, as causes. The wording
of the errors that a program's user sees is in `Error.message`. -/

namespace RationalLisp

/-- What is wrong with source text. -/
inductive Malformed where
  | unmatchedOpen
  | unexpectedClose
  | quoteWithoutExpression
  | dottedTailNotClosed
  | notOneExpression (found : Nat)
  | zeroDenominator (literal : Text)
  | unterminatedString
  deriving DecidableEq

/-- What is wrong with the operands of a form. -/
inductive FormFault where
  | wrongShape
  | improperOperands
  | badParameters
  | notAnAtom
  | nothingToSequence
  deriving DecidableEq

/-- What kind of operand was expected, and the printed form of what came instead. -/
inductive TypeFault where
  | notANumber (got : Text)
  | notAPair (got : Text)
  | notAText (got : Text)
  | argumentNotAString
  deriving DecidableEq

/-- Why a number has no result. -/
inductive ArithmeticFault where
  | zeroDivisor
  | tooLarge (function : Text)
  | outsideDomain (function : Text)
  | outsideRange (function : Text)
  | logarithmBaseOne
  deriving DecidableEq

/-- Why a path does not lead to what is asked for. -/
inductive AccessFault where
  /-- Nothing stands there. -/
  | missing
  /-- A directory stands where a file is asked for. -/
  | directory
  /-- A file stands on the way. -/
  | notADirectory
  /-- Something stands where nothing should. -/
  | present
  /-- The path or a name in it has too many bytes. -/
  | nameTooLong
  /-- A directory on the way may not be searched, or the file itself may not be opened. -/
  | denied
  deriving DecidableEq

/-- The errors of the language, which a session reports and survives. -/
inductive Error where
  | unboundName (name : Text)
  | arity (name : Text) (expected got : Nat)
  | invalidForm (name : Text) (fault : FormFault)
  | wrongType (name : Text) (fault : TypeFault)
  | emptyStack
  | popFromEmptyStack
  | noParentScope
  | notCallable (shown : Text)
  | malformed (fault : Malformed)
  | arithmetic (fault : ArithmeticFault)
  | sourceNotFound (path : Text)
  | sourceUnreadable (path : Text) (fault : AccessFault) (quotedPath : Text)
  deriving DecidableEq

/-- Everything that can end a run without a value. -/
inductive Failure where
  /-- An error of the language. -/
  | error (e : Error)
  /-- A number has too many digits to be written or read. -/
  | tooManyDigits
  /-- The nesting of evaluation, of source text or of a value to be shown is too deep. -/
  | outOfDepth
  /-- A source file does not hold UTF-8 text. -/
  | undecodable
  /-- A text that is to be printed holds a surrogate, which has no UTF-8 form. -/
  | unencodable
  /-- A path holds a code point that no file name can hold. -/
  | impossiblePath
  /-- A path that has to lead somewhere does not. -/
  | inaccessible (fault : AccessFault)
  /-- A file is asked for, but none is named. -/
  | noFileName
  /-- The setting for the prelude lists no directory. -/
  | noPreludeRoot
  /-- The nesting limit that is set is too large a number. -/
  | limitTooLarge
  /-- The name of a log level stands for a text. -/
  | levelIsText
  /-- The name of a log level stands for a table. -/
  | levelIsTable
  deriving DecidableEq

namespace Malformed

/-- The wording of a syntax error. -/
def message : Malformed → Text
  | unmatchedOpen => "Unmatched '('"
  | unexpectedClose => "Unexpected ')'"
  | quoteWithoutExpression => "Expected an expression after quote"
  | dottedTailNotClosed => "Expected ')' after dotted cdr"
  | notOneExpression found =>
    ("Expected exactly one expression, found " : Text) ++ Decimal.ofNat found
  | zeroDenominator literal => ("Zero denominator in literal " : Text) ++ literal
  | unterminatedString => "Unexpected character '\"' (unterminated string?)"

end Malformed

namespace FormFault

/-- The detail that a form's error gives, if any. -/
def detail? : FormFault → Option Text
  | wrongShape => none
  | improperOperands => some "improper argument list"
  | badParameters => some "invalid argument names"
  | notAnAtom => some "first argument must be an atom"
  | nothingToSequence => some "requires at least one expression"

end FormFault

namespace TypeFault

/-- The detail that a type error gives. -/
def detail : TypeFault → Text
  | notANumber got => ("expected a number, got " : Text) ++ got
  | notAPair got => ("expected a pair, got " : Text) ++ got
  | notAText got => ("expected a string, got " : Text) ++ got
  | argumentNotAString => "argument must be a string"

end TypeFault

namespace ArithmeticFault

/-- The wording of an arithmetic error. -/
def message : ArithmeticFault → Text
  | zeroDivisor => "/: division by zero"
  | tooLarge function => function ++ (": integer division result too large for a float" : Text)
  | outsideDomain function => function ++ (": math domain error" : Text)
  | outsideRange function => function ++ (": math range error" : Text)
  | logarithmBaseOne => "log: float division by zero"

end ArithmeticFault

namespace AccessFault

/-- The system's wording for a path that does not lead to what is asked for. -/
def message : AccessFault → Text
  | missing => "[Errno 2] No such file or directory"
  | directory => "[Errno 21] Is a directory"
  | notADirectory => "[Errno 20] Not a directory"
  | present => "[Errno 17] File exists"
  | nameTooLong => "[Errno 36] File name too long"
  | denied => "[Errno 13] Permission denied"

end AccessFault

namespace Error

/-- A form's name with a detail in brackets. -/
def formMessage (name : Text) : Option Text → Text
  | none => ("Invalid form: " : Text) ++ name
  | some detail => ("Invalid form: " : Text) ++ name ++ (" (" : Text) ++ detail ++ (")" : Text)

/-- The wording of an error. -/
def message : Error → Text
  | unboundName name => ("Unbound name: " : Text) ++ name
  | arity name expected got =>
    name ++ (": expected " : Text) ++ Decimal.ofNat expected ++ (" argument(s), got " : Text) ++
      Decimal.ofNat got
  | invalidForm name fault => formMessage name fault.detail?
  | wrongType name fault => formMessage name (some fault.detail)
  | emptyStack => "empty stack"
  | popFromEmptyStack => "pop from an empty environment stack"
  | noParentScope => "no parent scope"
  | notCallable shown => ("Not callable: " : Text) ++ shown
  | malformed fault => fault.message
  | arithmetic fault => fault.message
  | sourceNotFound path =>
    ("Cannot find source file '" : Text) ++ path ++ ("' in SILENCE_PATH" : Text)
  | sourceUnreadable path fault quotedPath =>
    ("Cannot read source file '" : Text) ++ path ++ ("': " : Text) ++ fault.message ++
      (": " : Text) ++ quotedPath

end Error

end RationalLisp
