import ClosedForm.Expr.Order
import ClosedForm.Expr.Traversal

/-!
# Sums as linear forms

A sum is brought into normal form by collecting like terms: terms that differ in their
rational coefficient only. A `LinearForm` holds the constant part and one coefficient for
each remaining part, in the order of first appearance; `LinearForm.toExpr` makes the sorted
sum of it. Nested sums, and sums with a coefficient in front, are opened on the way in.

`Canonical.add` is the rule for sums.
-/

namespace ClosedForm

/-- The coefficient of a term and what is left of it without the coefficient. A constant is
its own coefficient in front of `1`. -/
def Expr.splitCoefficient : Expr → Rat × Expr
  | .constant c => (c, .one)
  | .mul (.constant c :: factors) => (c, .product factors)
  | e => (1, e)

/-- A coefficient in front of an expression, as a flat product; `1` is not written. -/
def Expr.scale (c : Rat) (e : Expr) : Expr :=
  if c = 1 then e
  else
    match e with
    | .mul factors => .product (.constant c :: factors)
    | e => .product [.constant c, e]

/-- A constant and coefficients of distinct expressions. -/
structure LinearForm where
  constant : Rat
  /-- Expressions with their coefficients, in the order of first appearance. -/
  terms : List (Expr × Rat)
  deriving Repr, Inhabited

namespace LinearForm

/-- The form without terms. -/
def zero : LinearForm := ⟨0, []⟩

/-- Adds `c * e` to the terms. -/
def addTerm (e : Expr) (c : Rat) : List (Expr × Rat) → List (Expr × Rat)
  | [] => [(e, c)]
  | (other, d) :: rest =>
    if other = e then (other, d + c) :: rest else (other, d) :: addTerm e c rest

mutual

/-- Adds `scale * e` to a form, opening the sums inside. -/
def gather (scale : Rat) (form : LinearForm) : Expr → LinearForm
  | .constant c => { form with constant := form.constant + scale * c }
  | .add terms => gatherList scale form terms
  | .mul [.constant c, .add terms] => gatherList (scale * c) form terms
  | e =>
    let (c, rest) := e.splitCoefficient
    { form with terms := addTerm rest (scale * c) form.terms }

/-- Adds `scale` times each of the terms to a form. -/
def gatherList (scale : Rat) (form : LinearForm) : List Expr → LinearForm
  | [] => form
  | e :: es => gatherList scale (gather scale form e) es

end

theorem gatherList_eq_foldl (scale : Rat) (form : LinearForm) (es : List Expr) :
    gatherList scale form es = es.foldl (gather scale) form := by
  induction es generalizing form with
  | nil => rfl
  | cons e es ih => exact ih _

/-- The sum that a form stands for: the nonzero constant and the terms with a nonzero
coefficient, in ascending order. -/
def toExpr (form : LinearForm) : Expr :=
  let constants := if form.constant = 0 then [] else [Expr.constant form.constant]
  let scaled := form.terms.filterMap fun t => if t.2 = 0 then none else some (Expr.scale t.2 t.1)
  Expr.sum (Expr.sort (constants ++ scaled))

end LinearForm

namespace Canonical

/-- The sum of canonical terms. -/
def add (terms : List Expr) : Expr :=
  (LinearForm.gatherList 1 .zero terms).toExpr

end Canonical

end ClosedForm
