import ClosedForm.Calculus.Derivative
import ClosedForm.Substitute

/-!
# Taylor polynomials

The Taylor polynomial of order `n` has the powers below `n`, so that order `0` gives `0`. The
coefficients are exact: each derivative is evaluated at the point by substitution.
-/

namespace ClosedForm

namespace Taylor

/-- The terms from the `k`-th power on, `count` of them, where `derivative` is the `k`-th
derivative. Terms with the coefficient `0` are left out, and the derivative behind the last
term is not taken. -/
def terms (bounds : Bounds) (name : String) (point shift : Expr) :
    Nat → Nat → Expr → Memoizing (List Expr)
  | _, 0, _ => return []
  | k, count + 1, derivative => do
    let value ← substitute bounds derivative name point
    let term :=
      if value.isZero then []
      else [.mul [.constant (mkRat 1 (Rational.factorial k)), value, .pow shift (.integer k)]]
    let next ← if count = 0 then pure derivative else differentiate bounds derivative name
    let rest ← terms bounds name point shift (k + 1) count next
    return term ++ rest

end Taylor

/-- The Taylor polynomial about a point, with the powers below `order`. -/
def taylor (bounds : Bounds) (e : Expr) (name : String) (point : Expr) (order : Nat) :
    Memoizing Expr := do
  let shift := Expr.sub (.symbol name) point
  let canonical ← canonicalize bounds e
  let terms ← Taylor.terms bounds name point shift 0 order canonical
  canonicalize bounds (.sum terms)

/-- The Taylor polynomial about `0`. -/
def maclaurin (bounds : Bounds) (e : Expr) (name : String) (order : Nat) : Memoizing Expr :=
  taylor bounds e name .zero order

end ClosedForm
