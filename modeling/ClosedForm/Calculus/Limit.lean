import ClosedForm.Expr.Render
import ClosedForm.Substitute

/-!
# Limits by substitution

The limit of an expression that is defined at the point is its value there. Where the value is
not defined, because of a division by zero or a logarithm of a number that is not positive, no
limit is given.
-/

namespace ClosedForm

namespace Limit

/-- A logarithm of a constant that is not positive occurs. -/
def hasUndefinedPart : Expr → Bool :=
  Expr.recurse fun e found =>
    match e with
    | .function .ln (.constant c :: _) => c ≤ 0
    | _ => found.any id

/-- The refusal of a limit. -/
def undefined (e : Expr) (name : String) (point : Expr) : Error :=
  .unsupported (.undefinedLimit e.render name point.render)

end Limit

/-- The limit of an expression as a symbol approaches a point where the expression is
defined. -/
def limit (bounds : Bounds) (e : Expr) (name : String) (point : Expr) : Memoizing Expr := do
  let canonical ← canonicalize bounds e
  let value ← tryCatch (substitute bounds canonical name point) fun
    | .divisionByZero => throw (Limit.undefined canonical name point)
    | other => throw other
  if Limit.hasUndefinedPart value then throw (Limit.undefined canonical name point)
  else return value

end ClosedForm
