import LetCalc.Apply
import LetCalc.Binary64
import LetCalc.Blank
import LetCalc.Command
import LetCalc.Cursor
import LetCalc.Decimal
import LetCalc.Environment
import LetCalc.Eval
import LetCalc.Expr
import LetCalc.Fault
import LetCalc.Interpreter
import LetCalc.Literal
import LetCalc.Main
import LetCalc.Operator
import LetCalc.Outline
import LetCalc.Parse
import LetCalc.Proofs.Derivation
import LetCalc.Proofs.Lines
import LetCalc.Proofs.Reading
import LetCalc.Proofs.RoundTrip
import LetCalc.Proofs.Rules
import LetCalc.Proofs.Spelling
import LetCalc.Source
import LetCalc.Token
import LetCalc.Value
import LetCalc.Proofs.Reprinting
import LetCalc.Proofs.Grammar
import LetCalc.Proofs.Recognition
import LetCalc.Proofs.Disambiguation
import LetCalc.Proofs.Lookahead
import LetCalc.Proofs.ErrorPlace
import LetCalc.Proofs.Seam
import LetCalc.Proofs.Concatenation
import LetCalc.Proofs.Atomicity
import LetCalc.Proofs.Typing
import LetCalc.Proofs.Scope
import LetCalc.Proofs.Bindings
import LetCalc.Proofs.SelfContained
import LetCalc.Proofs.Layout
import LetCalc.Proofs.BadCharacters
import LetCalc.Proofs.Frame
import LetCalc.Proofs.Renaming
import LetCalc.Proofs.ErrorLines
import LetCalc.Proofs.Reports
import LetCalc.Proofs.FreeNames
import LetCalc.Proofs.Commuting
import LetCalc.Proofs.FirstFailure
import LetCalc.Proofs.Wrapping
import LetCalc.Proofs.Division
import LetCalc.Proofs.Doubles
import LetCalc.Proofs.Comparing
import LetCalc.Proofs.Numerals
import LetCalc.Proofs.ReadBack
import LetCalc.Proofs.Resuming
import LetCalc.Proofs.Writing
import LetCalc.Proofs.NodeLines
import LetCalc.Proofs.Rounding
import LetCalc.Proofs.Patterns
import LetCalc.Proofs.Shortest
import LetCalc.Proofs.DecimalText
import LetCalc.Proofs.RealText
import LetCalc.Proofs.Outlines
import LetCalc.Proofs.LastBindings
import LetCalc.Proofs.Walk
