import ClosedForm.Calculus.Limit
import ClosedForm.Calculus.Taylor
import ClosedForm.Evaluate
import ClosedForm.Expand
import ClosedForm.Stored.Form

/-!
# Expansion, substitution and calculus with the nodes that they store

The operations that canonicalize an expression, work on the canonical form, and canonicalize the
result again.
-/

namespace ClosedForm.Stored

open Session (storing)
open Storing (make making)

/-! ## Expansion -/

/-- The products of each of `products` with each term of a factor, as the terms of their
sum. -/
def distributeOver (bounds : Bounds) (products : List Expr) (factor : Expr) :
    Storing (List Expr) := do
  let next ← products.flatMapM fun p =>
    factor.terms.mapM fun t => multiply bounds [p, t]
  let partialSum ← add next
  return partialSum.terms

/-- The product of the factors, multiplied out. -/
def distribute (bounds : Bounds) (factors : List Expr) : Storing Expr := do
  let products ← factors.foldlM (distributeOver bounds) [.one]
  add products

/-- `product` times `base ^ n`, multiplied out factor by factor. -/
def multiplyOut (bounds : Bounds) (base : Expr) : Nat → Expr → Storing Expr
  | 0, product => return product
  | n + 1, product => do
    let next ← distribute bounds [product, base]
    multiplyOut bounds base n next

/-- `base ^ exponent`, multiplied out if it is an integer power of a sum within the limit. -/
def expandPower (bounds : Bounds) (base exponent : Expr) : Storing Expr :=
  match exponent.constant? with
  | some n =>
    if Rational.isInteger n && base.isAdd && n ≠ 0 &&
        n.num.natAbs ≤ bounds.maxExpandExponent then do
      let expanded ← multiplyOut bounds base (n.num.natAbs - 1) base
      if n < 0 then
        let minusOne ← make (.integer (-1))
        power bounds expanded minusOne
      else return expanded
    else power bounds base exponent
  | none => power bounds base exponent

/-- One node with expanded children, expanded. -/
def expandNode (bounds : Bounds) : Expr → Storing Expr
  | .add terms => add terms
  | .mul factors => distribute bounds factors
  | .pow base exponent => expandPower bounds base exponent
  | e => make e

/-- Expands every node of a canonical expression, children first. -/
def expandNodes (bounds : Bounds) (e : Expr) : Storing Expr :=
  e.foldM fun node children => expandNode bounds (node.withChildren children)

/-- The canonical form of an expression with products and powers of sums multiplied out. -/
def expand (bounds : Bounds) (e : Expr) : Request Expr := do
  let canonical ← canonicalize bounds e
  let expanded ← storing (expandNodes bounds canonical)
  canonicalize bounds expanded

/-! ## Substitution -/

/-- The canonical form of an expression with symbols replaced. -/
def substituteAll (bounds : Bounds) (e : Expr) (bindings : List (String × Expr)) : Request Expr :=
  canonicalizeNew bounds (e.replaceSymbols bindings)

/-- The canonical form of an expression with one symbol replaced. -/
def substitute (bounds : Bounds) (e : Expr) (name : String) (replacement : Expr) : Request Expr :=
  substituteAll bounds e [(name, replacement)]

/-! ## Calculus -/

/-- The derivative of a canonical expression, before it is canonicalized. -/
def derivative (name : String) (e : Expr) : Storing Expr :=
  e.foldM fun node derivatives => do
    let d ← Derivative.step name node derivatives
    make d

/-- The derivative of an expression with respect to a symbol, in canonical form. -/
def differentiate (bounds : Bounds) (e : Expr) (name : String) : Request Expr := do
  let canonical ← canonicalize bounds e
  let raw ← storing (derivative name canonical)
  canonicalize bounds raw

/-- Differentiates a canonical expression repeatedly, until it is `0` at the latest. -/
def differentiateTimes (bounds : Bounds) (name : String) : Nat → Expr → Request Expr
  | 0, e => return e
  | n + 1, e =>
    if e.isZero then return e
    else do
      let next ← differentiate bounds e name
      differentiateTimes bounds name n next

/-- The `n`-th derivative, in canonical form. -/
def differentiateN (bounds : Bounds) (e : Expr) (name : String) (n : Nat) : Request Expr := do
  let canonical ← canonicalize bounds e
  differentiateTimes bounds name n canonical

/-- The limit of an expression as a symbol approaches a point where the expression is
defined. -/
def limit (bounds : Bounds) (e : Expr) (name : String) (point : Expr) : Request Expr := do
  let canonical ← canonicalize bounds e
  let value ← tryCatch (substitute bounds canonical name point) fun
    | .divisionByZero => throw (Limit.undefined canonical name point)
    | other => throw other
  if Limit.hasUndefinedPart value then throw (Limit.undefined canonical name point)
  else return value

/-- The terms of a Taylor polynomial from the `k`-th power on, `count` of them, where `derivative`
is the `k`-th derivative. -/
def taylorTerms (bounds : Bounds) (name : String) (point shift : Expr) :
    Nat → Nat → Expr → Request (List Expr)
  | _, 0, _ => return []
  | k, count + 1, derivative => do
    let value ← substitute bounds derivative name point
    let term :=
      if value.isZero then []
      else [.mul [.constant (mkRat 1 (Rational.factorial k)), value, .pow shift (.integer k)]]
    let made ← storing (making term term)
    let next ← if count = 0 then pure derivative else differentiate bounds derivative name
    let rest ← taylorTerms bounds name point shift (k + 1) count next
    return made ++ rest

/-- The Taylor polynomial about a point, with the powers below `order`. -/
def taylor (bounds : Bounds) (e : Expr) (name : String) (point : Expr) (order : Nat) :
    Request Expr := do
  let shift ← storing (make (Expr.sub (.symbol name) point))
  let canonical ← canonicalize bounds e
  let terms ← taylorTerms bounds name point shift 0 order canonical
  canonicalizeNew bounds (.sum terms)

/-- The Taylor polynomial about `0`. -/
def maclaurin (bounds : Bounds) (e : Expr) (name : String) (order : Nat) : Request Expr :=
  taylor bounds e name .zero order

/-- The value of an expression, which has to be finite. -/
def evaluate (bounds : Bounds) (e : Expr) (bindings : List (String × Float)) : Request Float := do
  let canonical ← canonicalize bounds e
  let value ← Evaluate.ofCanonical bindings canonical
  if value.isFinite then return value
  else throw (.unsupported .notFinite)

end ClosedForm.Stored
