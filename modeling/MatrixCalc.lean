import MatrixCalc.Main
import MatrixCalc.Token.Scanner
import MatrixCalc.Proofs.Binary64.Finite
import MatrixCalc.Proofs.Binary64.Whole
import MatrixCalc.Proofs.Checked.Assignment
import MatrixCalc.Proofs.Checked.Attempt
import MatrixCalc.Proofs.Checked.Evaluation
import MatrixCalc.Proofs.Checked.Functions
import MatrixCalc.Proofs.Checked.Inverse
import MatrixCalc.Proofs.Checked.Loop
import MatrixCalc.Proofs.Checked.Parser
import MatrixCalc.Proofs.Checked.Reading
import MatrixCalc.Proofs.Checked.Resolution
import MatrixCalc.Proofs.Eval.Draws
import MatrixCalc.Proofs.Eval.FunctionShapes
import MatrixCalc.Proofs.Eval.Inheritance
import MatrixCalc.Proofs.Eval.Lifting
import MatrixCalc.Proofs.Eval.Postorder
import MatrixCalc.Proofs.Eval.Recursion
import MatrixCalc.Proofs.Eval.Regularity
import MatrixCalc.Proofs.Eval.ShapeSoundness
import MatrixCalc.Proofs.Expr.Acceptance
import MatrixCalc.Proofs.Expr.Balance
import MatrixCalc.Proofs.Expr.CallStack
import MatrixCalc.Proofs.Expr.Completion
import MatrixCalc.Proofs.Expr.Derivations
import MatrixCalc.Proofs.Expr.Descent
import MatrixCalc.Proofs.Expr.DescentOutcome
import MatrixCalc.Proofs.Expr.DescentRuns
import MatrixCalc.Proofs.Expr.DescentTurns
import MatrixCalc.Proofs.Expr.Faults
import MatrixCalc.Proofs.Expr.Grammar
import MatrixCalc.Proofs.Expr.Height
import MatrixCalc.Proofs.Expr.Layout
import MatrixCalc.Proofs.Expr.Naming
import MatrixCalc.Proofs.Expr.Offenders
import MatrixCalc.Proofs.Expr.Resolved
import MatrixCalc.Proofs.Expr.Simulation
import MatrixCalc.Proofs.Expr.Spaced
import MatrixCalc.Proofs.Expr.Tallest
import MatrixCalc.Proofs.Expr.Unambiguous
import MatrixCalc.Proofs.Mat.Block
import MatrixCalc.Proofs.Mat.Composition
import MatrixCalc.Proofs.Mat.Elimination
import MatrixCalc.Proofs.Mat.RowOperations
import MatrixCalc.Proofs.Names
import MatrixCalc.Proofs.Session.Calls
import MatrixCalc.Proofs.Session.Lexing
import MatrixCalc.Proofs.Session.Lines
import MatrixCalc.Proofs.Session.Locality
import MatrixCalc.Proofs.Session.Positions
import MatrixCalc.Proofs.Session.Tables
import MatrixCalc.Proofs.Session.Targets
import MatrixCalc.Proofs.Substitution
import MatrixCalc.Proofs.Token.Ground
import MatrixCalc.Proofs.Token.Keywords
import MatrixCalc.Proofs.Token.Reads
import MatrixCalc.Proofs.Token.Signs
import MatrixCalc.Proofs.Token.Tiles
import MatrixCalc.Proofs.Value.Padding
import MatrixCalc.Proofs.Value.Projections
import MatrixCalc.Proofs.Value.Shown
import MatrixCalc.Proofs.Variables.Assignment
import MatrixCalc.Proofs.Variables.Cycles
import MatrixCalc.Proofs.Variables.Expansion
import MatrixCalc.Proofs.Variables.Locality
import MatrixCalc.Proofs.Variables.Steps
import MatrixCalc.Proofs.Variables.Termination
