import EagerLisp.Console.Completion
import EagerLisp.Console.Highlight
import EagerLisp.FileTree
import EagerLisp.Main
import EagerLisp.Proofs.Token.OnePass
import EagerLisp.Proofs.Token.Place
import EagerLisp.Proofs.Token.Order
import EagerLisp.Proofs.Text.Stretch
import EagerLisp.Proofs.Node.Flatten
import EagerLisp.Proofs.Node.Place
import EagerLisp.Proofs.Token.Depth
import EagerLisp.Proofs.Node.Outcome
import EagerLisp.Proofs.Token.Parens
import EagerLisp.Proofs.Token.Matching
import EagerLisp.Proofs.Token.Join
import EagerLisp.Proofs.Token.Solid
import EagerLisp.Proofs.Token.Spaced
import EagerLisp.Proofs.Token.Piece
import EagerLisp.Proofs.Number.Characters
import EagerLisp.Proofs.Number.Infinite
import EagerLisp.Proofs.Atom.Spelling
import EagerLisp.Proofs.Node.Program
import EagerLisp.Proofs.Node.Progress
import EagerLisp.Proofs.Node.Piece
import EagerLisp.Proofs.Console.Balance
import EagerLisp.Proofs.Console.Painting
import EagerLisp.Proofs.Console.InPlace
import EagerLisp.Proofs.Console.Highlight
import EagerLisp.Proofs.Value.Holds
import EagerLisp.Proofs.Value.Same
import EagerLisp.Proofs.Value.Path
import EagerLisp.Proofs.Eval.Keeping
import EagerLisp.Proofs.Eval.Passing
import EagerLisp.Proofs.Eval.Ledger
import EagerLisp.Proofs.Eval.Fresh
import EagerLisp.Proofs.Eval.NativeCalls
import EagerLisp.Proofs.Eval.Simulation
import EagerLisp.Proofs.Eval.Limit
import EagerLisp.Proofs.Eval.Registers
import EagerLisp.Proofs.Eval.Frame
import EagerLisp.Proofs.Eval.Nesting
import EagerLisp.Proofs.Eval.Recursion
import EagerLisp.Proofs.Value.Likeness
import EagerLisp.Proofs.Eval.Relating
import EagerLisp.Proofs.Eval.Mention
import EagerLisp.Proofs.Eval.Application
import EagerLisp.Proofs.Eval.Flow
import EagerLisp.Proofs.Node.Likeness
import EagerLisp.Proofs.Eval.Provenance
import EagerLisp.Proofs.Interpreter.Session
import EagerLisp.Proofs.Interpreter.Passing
import EagerLisp.Proofs.Interpreter.Limit
import EagerLisp.Proofs.Interpreter.Splitting
import EagerLisp.Proofs.Interpreter.Located
import EagerLisp.Proofs.Interpreter.Natives
import EagerLisp.Proofs.Interpreter.Identity
import EagerLisp.Proofs.Node.Printed
import EagerLisp.Proofs.Value.Printed
import EagerLisp.Proofs.Report.Lines
import EagerLisp.Proofs.Report.Header
import EagerLisp.Proofs.Interpreter.Reported
import EagerLisp.Proofs.Number.Grammar
import EagerLisp.Proofs.Number.Rounding
import EagerLisp.Proofs.Number.Whole
import EagerLisp.Proofs.Number.Radix
import EagerLisp.Proofs.Atom.Shape
import EagerLisp.Proofs.Console.Completion
import EagerLisp.Proofs.CommandLine.Batch
