import AlgebraEngine.Main
import AlgebraEngine.Proofs.Eval.History
import AlgebraEngine.Proofs.Parser.Acceptance
import AlgebraEngine.Proofs.Parser.Nesting
import AlgebraEngine.Proofs.Parser.Oversize
import AlgebraEngine.Proofs.Parser.Usage
import AlgebraEngine.Proofs.Session.Stability
import AlgebraEngine.Proofs.Simplify.Chain
import AlgebraEngine.Proofs.Simplify.Idempotence
import AlgebraEngine.Proofs.Simplify.Independence
import AlgebraEngine.Proofs.Simplify.Termination
import AlgebraEngine.Proofs.Simplify.Vectors
import AlgebraEngine.Proofs.Solve.Forgetting
import AlgebraEngine.Proofs.Solve.Isolability
import AlgebraEngine.Proofs.Solve.Soundness
import AlgebraEngine.Proofs.Solve.Growth
import AlgebraEngine.Proofs.Simplify.Passes
import AlgebraEngine.Proofs.Simplify.Progress
import AlgebraEngine.Proofs.Parser.Shape
import AlgebraEngine.Proofs.Simplify.FractionSum
import AlgebraEngine.Proofs.Simplify.ZeroTerms
import AlgebraEngine.Proofs.Solve.Shape
import AlgebraEngine.Proofs.Eval.Typing
import AlgebraEngine.Proofs.Parser.Continuation
import AlgebraEngine.Proofs.Parser.Variable
import AlgebraEngine.Proofs.Session.Pointing
import AlgebraEngine.Proofs.Eval.Symbolic
import AlgebraEngine.Proofs.Eval.Requests
import AlgebraEngine.Proofs.Simplify.RuleOrder
import AlgebraEngine.Proofs.Simplify.LowestTerms
import AlgebraEngine.Proofs.Parser.Counting
