import ClosedForm.Canonical.Form

/-!
# Derivatives

The derivative of a canonical expression is built from the derivatives of its children by the
sum, product, power and chain rules, and canonicalized in the end.
-/

namespace ClosedForm

namespace Derivative

/-- The terms of the product rule: for each factor with a derivative other than `0`, that
derivative times the other factors. `before` are the factors already passed. -/
def productTerms : List Expr → List (Expr × Expr) → List Expr
  | _, [] => []
  | before, (factor, derivative) :: rest =>
    let others := productTerms (before ++ [factor]) rest
    if derivative.isZero then others
    else Expr.product (derivative :: before ++ rest.map Prod.fst) :: others

/-- The power rule. With an exponent free of the variable it is
`(b^e)' = e * b^(e - 1) * b'`, and otherwise `(b^e)' = b^e * (e' * ln b + e * b' / b)`. -/
def powerRule (name : String) (base exponent dBase dExponent : Expr) : Expr :=
  if exponent.contains name then
    .mul [.pow base exponent,
      .add [.mul [dExponent, .call .ln base], .mul [exponent, dBase, .inverse base]]]
  else if dBase.isZero then .zero
  else .mul [exponent, .pow base (.add [exponent, .integer (-1)]), dBase]

/-- The derivative of a function at an argument. -/
def outer (argument : Expr) : Func → Expr
  | .sin => .call .cos argument
  | .cos => .neg (.call .sin argument)
  | .tan => .pow (.call .cos argument) (.integer (-2))
  | .exp => .call .exp argument
  | .ln => .inverse argument
  | .imaginaryUnit => .zero

/-- The chain rule for a function of one argument. -/
def chainRule (head : Func) (argument dArgument : Expr) : Expr :=
  if dArgument.isZero || head = .imaginaryUnit then .zero
  else .mul [outer argument head, dArgument]

/-- The derivative of a node from the derivatives of its children. -/
def step (name : String) (e : Expr) (derivatives : List Expr) : Except Error Expr :=
  match e, derivatives with
  | .constant _, _ => return .zero
  | .symbol other, _ => return if other == name then .one else .zero
  | .add _, _ => return .sum derivatives
  | .mul factors, _ => return .sum (productTerms [] (factors.zip derivatives))
  | .pow base exponent, [dBase, dExponent] =>
    return powerRule name base exponent dBase dExponent
  | .pow _ _, _ => return .zero
  | .function _ [], _ => return .zero
  | .function head [argument], [dArgument] => return chainRule head argument dArgument
  | .function head arguments, _ =>
    throw (.unsupported (.derivativeArity head arguments.length))

/-- The derivative of a canonical expression, before it is canonicalized. -/
def ofCanonical (name : String) (e : Expr) : Except Error Expr :=
  e.foldM (step name)

end Derivative

/-- The derivative of an expression with respect to a symbol, in canonical form. -/
def differentiate (bounds : Bounds) (e : Expr) (name : String) : Memoizing Expr := do
  let canonical ← canonicalize bounds e
  let derivative ← Derivative.ofCanonical name canonical
  canonicalize bounds derivative

/-- Differentiates a canonical expression repeatedly, until it is `0` at the latest. -/
def differentiateTimes (bounds : Bounds) (name : String) : Nat → Expr → Memoizing Expr
  | 0, e => return e
  | n + 1, e =>
    if e.isZero then return e
    else do
      let next ← differentiate bounds e name
      differentiateTimes bounds name n next

/-- The `n`-th derivative, in canonical form. -/
def differentiateN (bounds : Bounds) (e : Expr) (name : String) (n : Nat) : Memoizing Expr := do
  let canonical ← canonicalize bounds e
  differentiateTimes bounds name n canonical

end ClosedForm
