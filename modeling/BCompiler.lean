import BCompiler.Session.Basic
import BCompiler.Command.Run
import BCompiler.Main
import BCompiler.Proofs.Graph
import BCompiler.Proofs.Assignment.Course
import BCompiler.Proofs.Expression.Evaluation
import BCompiler.Proofs.Procedure
import BCompiler.Proofs.Typing
import BCompiler.Proofs.Assembly.Module
import BCompiler.Proofs.Naming.Function
import BCompiler.Proofs.Grammar.Generation
import BCompiler.Proofs.Totality
import BCompiler.Proofs.Concatenation
import BCompiler.Proofs.Assembly.Layout
import BCompiler.Proofs.Scope
import BCompiler.Proofs.Assembly.Recovery
import BCompiler.Proofs.CaseValues
import BCompiler.Proofs.Lookahead
import BCompiler.Proofs.Command.Run
import BCompiler.Proofs.Dispatch
import BCompiler.Proofs.Resolution
import BCompiler.Proofs.Label
import BCompiler.Proofs.Hoisting
import BCompiler.Proofs.Closing
import BCompiler.Proofs.Source.Packing
import BCompiler.Proofs.Global
import BCompiler.Proofs.Lvalue
import BCompiler.Proofs.Subscript
