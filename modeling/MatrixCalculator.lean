import MatrixCalculator.Host
import MatrixCalculator.Main
import MatrixCalculator.Proofs.Assembly
import MatrixCalculator.Proofs.Reading
import MatrixCalculator.Proofs.Parsing
import MatrixCalculator.Proofs.Spelling
import MatrixCalculator.Proofs.Acceptance
import MatrixCalculator.Proofs.Pieces
import MatrixCalculator.Proofs.Lexing
import MatrixCalculator.Proofs.Verdicts
import MatrixCalculator.Proofs.Completion
import MatrixCalculator.Proofs.Values
import MatrixCalculator.Proofs.Relocation
import MatrixCalculator.Proofs.Joining
import MatrixCalculator.Proofs.Arguments
import MatrixCalculator.Proofs.Fragments
import MatrixCalculator.Proofs.Limits
import MatrixCalculator.Proofs.Doubles
import MatrixCalculator.Proofs.Lines
import MatrixCalculator.Proofs.Trees
import MatrixCalculator.Proofs.Operations
import MatrixCalculator.Proofs.Soundness
import MatrixCalculator.Proofs.Runs
import MatrixCalculator.Proofs.Sessions
import MatrixCalculator.Proofs.Histories
import MatrixCalculator.Proofs.Dialogues
import MatrixCalculator.Proofs.Outlines
import MatrixCalculator.Proofs.Spacing
import MatrixCalculator.Proofs.Scripts
import MatrixCalculator.Proofs.Numerals
import MatrixCalculator.Proofs.Printing
import MatrixCalculator.Proofs.Chains
import MatrixCalculator.Proofs.Literals
import MatrixCalculator.Proofs.Exact
import MatrixCalculator.Proofs.Solving
import MatrixCalculator.Proofs.Determinants
import MatrixCalculator.Proofs.Reductions
import MatrixCalculator.Proofs.Agreement
import MatrixCalculator.Proofs.Echelon
import MatrixCalculator.Proofs.Canonical
import MatrixCalculator.Proofs.NonzeroRows
import MatrixCalculator.Proofs.ReducedForms
import MatrixCalculator.Proofs.ZeroPivots
import MatrixCalculator.Proofs.ExactReduction
import MatrixCalculator.Proofs.RightSides
import MatrixCalculator.Proofs.Stability
import MatrixCalculator.Proofs.NullSpaces
import MatrixCalculator.Proofs.Powers
import MatrixCalculator.Proofs.Sums
import MatrixCalculator.Proofs.Products
import MatrixCalculator.Proofs.SingleEntries
import MatrixCalculator.Proofs.Overflow
import MatrixCalculator.Proofs.Reciprocals
import MatrixCalculator.Proofs.Moves
import MatrixCalculator.Proofs.Composition
import MatrixCalculator.Proofs.Positions
import MatrixCalculator.Proofs.Comments
import MatrixCalculator.Proofs.Dependence
import MatrixCalculator.Proofs.ErrorLines
import MatrixCalculator.Proofs.NumericRuns
import MatrixCalculator.Proofs.Indexing
import MatrixCalculator.Proofs.Transposition
import MatrixCalculator.Proofs.RowByColumn
import MatrixCalculator.Proofs.Progress
import MatrixCalculator.Proofs.Resumption
import MatrixCalculator.Proofs.OpenCalls
import MatrixCalculator.Proofs.Levels
import MatrixCalculator.Proofs.Depths
