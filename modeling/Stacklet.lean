import Stacklet.Assembly.Assembler
import Stacklet.Assembly.Call
import Stacklet.Assembly.Dispatch
import Stacklet.Assembly.Verify
import Stacklet.Checking.Diagnostic
import Stacklet.Checking.Expr
import Stacklet.Checking.Jumps
import Stacklet.Checking.Names
import Stacklet.Checking.Program
import Stacklet.Checking.Reporting
import Stacklet.Checking.Stmt
import Stacklet.Code.Basic
import Stacklet.Code.Instr
import Stacklet.Code.Json
import Stacklet.CommandLine.Arguments
import Stacklet.CommandLine.Path
import Stacklet.CommandLine.Run
import Stacklet.CommandLine.Trace
import Stacklet.Compile
import Stacklet.Decimal.Parts
import Stacklet.Decimal.Shortest
import Stacklet.Decimal.Style
import Stacklet.Json.Basic
import Stacklet.Json.Decode
import Stacklet.Json.Numeral
import Stacklet.Json.Reader
import Stacklet.Json.Token
import Stacklet.Json.Writer
import Stacklet.Lowering.Basic
import Stacklet.Lowering.Expr
import Stacklet.Lowering.Place
import Stacklet.Lowering.Stmt
import Stacklet.Machine.Frame
import Stacklet.Machine.Run
import Stacklet.Machine.Stack
import Stacklet.Machine.Value
import Stacklet.Main
import Stacklet.Operator
import Stacklet.Options
import Stacklet.Options.Json
import Stacklet.Options.Toml
import Stacklet.Source.Basic
import Stacklet.Source.Json
import Stacklet.Source.Outline
import Stacklet.Source.Printer
import Stacklet.Source.Unplaced
import Stacklet.Text.Blank
import Stacklet.Toml.Reader
import Stacklet.Toml.Scalar
import Stacklet.Toml.Token
import Stacklet.Ty
import Stacklet.Typed.Basic
import Stacklet.Proofs.Assembly.Depth
import Stacklet.Proofs.Machine.Bisect
import Stacklet.Proofs.Machine.Budget
import Stacklet.Proofs.Machine.Effect
import Stacklet.Proofs.Machine.Reach
import Stacklet.Proofs.Assembly.Discipline
import Stacklet.Proofs.Evaluation.Expr
import Stacklet.Proofs.Evaluation.Stmt
import Stacklet.Proofs.Typing.Reports
import Stacklet.Proofs.Typing.Steady
import Stacklet.Proofs.Typing.Gives
import Stacklet.Proofs.Typing.CheckedExpr
import Stacklet.Proofs.Typing.CheckedStmt
import Stacklet.Proofs.Typing.Program
import Stacklet.Proofs.Typing.Layout
import Stacklet.Proofs.Evaluation.Soundness
import Stacklet.Proofs.Lowering.Expr
import Stacklet.Proofs.Lowering.Stmt
import Stacklet.Proofs.Lowering.Labels
import Stacklet.Proofs.Lowering.Depths
import Stacklet.Proofs.Lowering.Parts
import Stacklet.Proofs.Assembly.Dispatch
import Stacklet.Proofs.Lowering.Total
import Stacklet.Proofs.Assembly.Complete
import Stacklet.Proofs.Compiled.Depth
import Stacklet.Proofs.Compiled.Total
import Stacklet.Proofs.Evaluation.Faults
import Stacklet.Proofs.Typing.Discipline
import Stacklet.Proofs.Simulation.Instr
import Stacklet.Proofs.Simulation.Forms
import Stacklet.Proofs.Simulation.Expr
import Stacklet.Proofs.Simulation.Loop
import Stacklet.Proofs.Simulation.Stmt
import Stacklet.Proofs.Simulation.Fragments
import Stacklet.Proofs.Compiled.Forms
import Stacklet.Proofs.Compiled.Preservation
import Stacklet.Proofs.Compiled.Soundness
import Stacklet.Proofs.Assembly.Alike
import Stacklet.Proofs.Assembly.Resolved
import Stacklet.Proofs.Compiled.Density
import Stacklet.Proofs.Assembly.Linking
import Stacklet.Proofs.Assembly.Relocation
import Stacklet.Proofs.Assembly.Selection
import Stacklet.Proofs.Typing.DecidedExpr
import Stacklet.Proofs.Typing.DecidedStmt
import Stacklet.Proofs.Typing.DecidedProgram
import Stacklet.Proofs.Typing.Settled
import Stacklet.Proofs.Evaluation.Initialized
import Stacklet.Proofs.Machine.Locals
import Stacklet.Proofs.Compiled.Initialized
import Stacklet.Proofs.Typing.Derivation
import Stacklet.Proofs.Typing.Limit
import Stacklet.Proofs.Typing.Subjects
import Stacklet.Proofs.Typing.Jumps
import Stacklet.Proofs.Typing.LabelMistakes
import Stacklet.Proofs.Typing.Resolution
import Stacklet.Proofs.Typing.Storage
import Stacklet.Proofs.Lowering.Errors
import Stacklet.Proofs.Typing.Wildcards
import Stacklet.Proofs.Compiled.Balance
import Stacklet.Proofs.Lowering.Bare
import Stacklet.Proofs.Compiled.Relabelled
import Stacklet.Proofs.Lowering.Relocation
import Stacklet.Proofs.Compiled.Relocation
import Stacklet.Proofs.Json.Numeral
import Stacklet.Proofs.Json.Text
import Stacklet.Proofs.Json.Decoded
import Stacklet.Proofs.Json.RoundTrip
import Stacklet.Proofs.Assembly.Exact
import Stacklet.Proofs.Typing.Scopes
import Stacklet.Proofs.Typing.UnknownOperand
import Stacklet.Proofs.Typing.UnknownName
import Stacklet.Proofs.Lowering.WriteOnce
