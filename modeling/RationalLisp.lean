import RationalLisp.CommandLine
import RationalLisp.CommandLine.Options
import RationalLisp.Eval
import RationalLisp.Eval.Builtin
import RationalLisp.Eval.Form
import RationalLisp.Failure
import RationalLisp.Files.Path
import RationalLisp.Files.Tree
import RationalLisp.Host
import RationalLisp.Host.Writing
import RationalLisp.Journal
import RationalLisp.Main
import RationalLisp.Numeral
import RationalLisp.Numeric.Binary64
import RationalLisp.Numeric.Elementary
import RationalLisp.Numeric.FixedPoint
import RationalLisp.Prelude
import RationalLisp.Primitive
import RationalLisp.Procedure
import RationalLisp.Proofs.Changes
import RationalLisp.Proofs.Concatenation
import RationalLisp.Proofs.Contents
import RationalLisp.Proofs.EvalFailures
import RationalLisp.Proofs.EvalSimulation
import RationalLisp.Proofs.ExpressionGrammar
import RationalLisp.Proofs.FrameRule
import RationalLisp.Proofs.Layouts
import RationalLisp.Proofs.LexicalScoping
import RationalLisp.Proofs.Numerals
import RationalLisp.Proofs.OrderlyRuns
import RationalLisp.Proofs.OrderlySessions
import RationalLisp.Proofs.OrderlyStores
import RationalLisp.Proofs.Outcomes
import RationalLisp.Proofs.PrintedSource
import RationalLisp.Proofs.PrintedTokens
import RationalLisp.Proofs.Reach
import RationalLisp.Proofs.ReaderValues
import RationalLisp.Proofs.ReadingBack
import RationalLisp.Proofs.ReadingPrograms
import RationalLisp.Proofs.RoundTrip
import RationalLisp.Proofs.ScopeTree
import RationalLisp.Proofs.Showing
import RationalLisp.Proofs.Simulation
import RationalLisp.Proofs.StackDiscipline
import RationalLisp.Proofs.Terminal
import RationalLisp.Proofs.TokenGrammar
import RationalLisp.Proofs.Trace
import RationalLisp.Reader
import RationalLisp.Reader.Stream
import RationalLisp.Scope.Frame
import RationalLisp.Scope.Printer
import RationalLisp.Scope.Store
import RationalLisp.Session
import RationalLisp.Text
import RationalLisp.Text.Blank
import RationalLisp.Text.Decimal
import RationalLisp.Text.Digit
import RationalLisp.Text.Printable
import RationalLisp.Text.Quoted
import RationalLisp.Text.Tape
import RationalLisp.Text.Upper
import RationalLisp.Text.Utf8
import RationalLisp.Token
import RationalLisp.Value
import RationalLisp.Value.Hash
import RationalLisp.Value.List
import RationalLisp.Value.Printer
import RationalLisp.Proofs.Growth
import RationalLisp.Proofs.DepthLimits
import RationalLisp.Proofs.Sequences
import RationalLisp.Proofs.Creations
import RationalLisp.Proofs.ProcedureIdentity
import RationalLisp.Proofs.BigSteps
import RationalLisp.Proofs.NumeralGrammar
import RationalLisp.Proofs.StringLiterals
import RationalLisp.Proofs.CodeAsText
import RationalLisp.Proofs.GlobalNames
import RationalLisp.Proofs.PreludeDefinitions
import RationalLisp.Proofs.PreludeLists
import RationalLisp.Proofs.Agreement
import RationalLisp.Proofs.Composition
import RationalLisp.Proofs.Detachment
import RationalLisp.Proofs.Equality
import RationalLisp.Proofs.PreludeTraversals
import RationalLisp.Proofs.Encodings
import RationalLisp.Proofs.Descent
import RationalLisp.Proofs.TokenStreams
import RationalLisp.Proofs.ScopeHistories
