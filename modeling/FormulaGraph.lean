import FormulaGraph.Main
import FormulaGraph.Proofs.Calendar.Shift
import FormulaGraph.Proofs.Computation.Additions
import FormulaGraph.Proofs.Computation.BaseValues
import FormulaGraph.Proofs.Computation.Confluence
import FormulaGraph.Proofs.Computation.Cycles
import FormulaGraph.Proofs.Computation.Failures
import FormulaGraph.Proofs.Computation.Irrelevance
import FormulaGraph.Proofs.Computation.Normalization
import FormulaGraph.Proofs.Computation.Pinning
import FormulaGraph.Proofs.Computation.Predicates
import FormulaGraph.Proofs.Computation.Respelling
import FormulaGraph.Proofs.Dependency.Cycles
import FormulaGraph.Proofs.Evaluation.Chains
import FormulaGraph.Proofs.Evaluation.Expansion
import FormulaGraph.Proofs.Evaluation.Guard
import FormulaGraph.Proofs.Evaluation.Tally
import FormulaGraph.Proofs.Loading.Prefixes
import FormulaGraph.Proofs.Namespaces.Idempotence
import FormulaGraph.Proofs.Query.Answer
import FormulaGraph.Proofs.Query.Comparison
import FormulaGraph.Proofs.Rule.Grammar
import FormulaGraph.Proofs.Rule.NormalForms
