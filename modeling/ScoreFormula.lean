import ScoreFormula.Session
import ScoreFormula.Main
import ScoreFormula.Proofs.Forest.Read
import ScoreFormula.Proofs.Literal
import ScoreFormula.Proofs.Registration
import ScoreFormula.Proofs.Nesting
import ScoreFormula.Proofs.Spelling
import ScoreFormula.Proofs.Balance
import ScoreFormula.Proofs.Session
import ScoreFormula.Proofs.Session.Binding
import ScoreFormula.Proofs.Draw
import ScoreFormula.Proofs.Session.Draw
import ScoreFormula.Proofs.Session.Value
import ScoreFormula.Proofs.Substitution
import ScoreFormula.Proofs.Forest.Scope
import ScoreFormula.Proofs.Session.Reuse
import ScoreFormula.Proofs.Session.Interference
import ScoreFormula.Proofs.Session.Order
import ScoreFormula.Proofs.Lexeme
import ScoreFormula.Proofs.Forest.Respace
import ScoreFormula.Proofs.Layout
import ScoreFormula.Proofs.ReadingOrder
import ScoreFormula.Proofs.Forest.Balanced
import ScoreFormula.Proofs.Segmentation
import ScoreFormula.Proofs.Calls
import ScoreFormula.Proofs.CommandLine.Report
import ScoreFormula.Proofs.Imbalance
import ScoreFormula.Proofs.Diagram.Outline
import ScoreFormula.Proofs.Forest.Raise
import ScoreFormula.Proofs.Wrapping
import ScoreFormula.Proofs.Decimal.Shortest
import ScoreFormula.Proofs.Decimal.Figures
import ScoreFormula.Proofs.Infix
import ScoreFormula.Proofs.Diagram.Strokes
import ScoreFormula.Proofs.Height
import ScoreFormula.Proofs.Literal.Grammar
import ScoreFormula.Proofs.Composition
import ScoreFormula.Proofs.CommandLine.Assignment
import ScoreFormula.Proofs.Infix.Tokens
import ScoreFormula.Proofs.Listing
