import Lox.Main
import Lox.Scope.Operation
import Lox.Proofs.Grammar.Basic
import Lox.Proofs.Computation
import Lox.Proofs.Grammar.Expression
import Lox.Proofs.Parser.Composition
import Lox.Proofs.Parser.Progress
import Lox.Proofs.Grammar.Statement
import Lox.Proofs.Tree.WellFormed
import Lox.Proofs.Parser.Loops
import Lox.Proofs.Parser.Recovery
import Lox.Proofs.Lookahead.Basic
import Lox.Proofs.Lookahead.Expression
import Lox.Proofs.Run.Steps
import Lox.Proofs.Run.Commuting
import Lox.Proofs.Run.Safety
import Lox.Proofs.Scan.Longest
import Lox.Proofs.Scan.Restarts
import Lox.Proofs.Scope.Site
import Lox.Proofs.Scope.Watch
import Lox.Proofs.Scope.Resolution
import Lox.Proofs.Scope.Names
import Lox.Proofs.Scope.Unmentioned
import Lox.Proofs.Lookahead.Statement
import Lox.Proofs.Grammar.Nearest
import Lox.Proofs.Lookahead.FirstError
import Lox.Proofs.Relocation.Basic
import Lox.Proofs.Relocation.Scan
import Lox.Proofs.Relocation.Parser
import Lox.Proofs.Relocation.Run
import Lox.Proofs.Relocation.Session
import Lox.Proofs.Decimal.Bits
import Lox.Proofs.Decimal.Nearest
import Lox.Proofs.CommandLine.Emit
import Lox.Proofs.Decimal.Shortest
import Lox.Proofs.Decimal.Spelling
import Lox.Proofs.Json.Scalar
import Lox.Proofs.Json.RoundTrip
import Lox.Proofs.Json.Lines
import Lox.Proofs.Tree.Canonical
import Lox.Proofs.Tree.Document
import Lox.Proofs.Directory.Put
import Lox.Proofs.Trace.Levels
import Lox.Proofs.Shell.Journal
import Lox.Proofs.Scan.Front
import Lox.Proofs.Grammar.Blocks
import Lox.Proofs.Shell.OpenBlocks
import Lox.Proofs.Expression.Evaluation
import Lox.Proofs.Expression.Program
import Lox.Proofs.Expression.Session
import Lox.Proofs.CommandLine.Status
import Lox.Proofs.CommandLine.TreeFile
import Lox.Proofs.Parser.Limit
import Lox.Proofs.Parser.Skip
import Lox.Proofs.Parser.Unclosed
import Lox.Proofs.Run.Instructions
import Lox.Proofs.Parser.Retained
import Lox.Proofs.Parser.Order
import Lox.Proofs.Scan.Rendering
import Lox.Proofs.Scan.Blanked
import Lox.Proofs.Decimal.Sign
import Lox.Proofs.Expression.Display
import Lox.Proofs.Run.Blame
import Lox.Proofs.Shell.Prompt
import Lox.Proofs.Run.Limit
import Lox.Proofs.Parser.Found
import Lox.Proofs.Diagnostic.Lines
import Lox.Proofs.Cursor.Walk
import Lox.Proofs.Cursor.Follows
import Lox.Proofs.Cursor.Expression
import Lox.Proofs.Cursor.Statement
import Lox.Proofs.Cursor.Program
import Lox.Proofs.Scope.Tree
import Lox.Proofs.Tree.FirstToken
