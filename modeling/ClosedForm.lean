import ClosedForm.Proofs.Idempotence
import ClosedForm.Proofs.Value.Canonical
import ClosedForm.Quick
import ClosedForm.Proofs.Normal.Nodes
import ClosedForm.Proofs.Sharing
import ClosedForm.Proofs.History
import ClosedForm.Proofs.Text.Grammar
import ClosedForm.Proofs.Text.Parsing
import ClosedForm.Proofs.Text.Words
import ClosedForm.Proofs.Text.Sources
import ClosedForm.Proofs.Outcomes
import ClosedForm.Proofs.Value.Polynomials
import ClosedForm.Proofs.Reduction
import ClosedForm.Proofs.Solve.Elimination
import ClosedForm.Proofs.Solve.Equations
import ClosedForm.Proofs.Solve.Systems
import ClosedForm.Proofs.Normal.Divisors
import ClosedForm.Proofs.Text.Writing
import ClosedForm.Proofs.Text.Meaning
import ClosedForm.Proofs.Text.Layouts
import ClosedForm.Proofs.Text.Names
import ClosedForm.Proofs.Text.Leftovers
import ClosedForm.Proofs.Text.Rendering
import ClosedForm.Proofs.Retention
import ClosedForm.Proofs.Observation
import ClosedForm.Proofs.Recall
import ClosedForm.Proofs.Failures
import ClosedForm.Proofs.Unordered
import ClosedForm.Proofs.Rearrangement
import ClosedForm.Proofs.Text.Semantics
import ClosedForm.Proofs.Text.Regrouping
import ClosedForm.Proofs.Text.Faithful
import ClosedForm.Proofs.Expansion.Forms
import ClosedForm.Proofs.Expansion.Rules
import ClosedForm.Proofs.Expansion.Distribution
import ClosedForm.Proofs.Expansion.Identity
import ClosedForm.Proofs.Solve.Quadratic
import ClosedForm.Proofs.Calculus.SumRule
import ClosedForm.Proofs.Substitution
import ClosedForm.Proofs.Radicals
import ClosedForm.Proofs.Arithmetic
import ClosedForm.Proofs.Calculus.TaylorPolynomials
import ClosedForm.Proofs.Solve.Formula
import ClosedForm.Proofs.OnePass
import ClosedForm.Proofs.Repetition
import ClosedForm.Proofs.Solve.Determinant
import ClosedForm.Proofs.Solve.Diagnostics
import ClosedForm.Proofs.Ring.Coefficients
import ClosedForm.Proofs.Ring.Operations
import ClosedForm.Proofs.Ring.Extraction
import ClosedForm.Proofs.Ring.RoundTrip
import ClosedForm.Proofs.Expansion.Agreement
import ClosedForm.Proofs.Strict
import ClosedForm.Proofs.Expansion.Completeness
import ClosedForm.Proofs.Comparison
import ClosedForm.Proofs.Termination
import ClosedForm.Proofs.StackFold
