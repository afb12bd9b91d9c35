import ClosedForm.Canonical.Form

/-!
# Expansion

`expand` multiplies out products of sums and integer powers of sums, from the leaves up. A
power beyond the limit stays as it is, and a negative power of a sum expands its denominator
only.
-/

namespace ClosedForm

namespace Expand

/-- The products of each of `products` with each term of a factor, as the terms of their
sum. -/
def distributeOver (bounds : Bounds) (products : List Expr) (factor : Expr) :
    Except Error (List Expr) := do
  let next ← products.flatMapM fun p =>
    factor.terms.mapM fun t => Canonical.multiply bounds [p, t]
  return (Canonical.add next).terms

/-- The product of the factors, multiplied out. Like terms are collected after each factor,
which keeps the list of products small. -/
def distribute (bounds : Bounds) (factors : List Expr) : Except Error Expr := do
  let products ← factors.foldlM (distributeOver bounds) [.one]
  return Canonical.add products

/-- `product` times `base ^ n`, multiplied out factor by factor. -/
def multiplyOut (bounds : Bounds) (base : Expr) : Nat → Expr → Except Error Expr
  | 0, product => return product
  | n + 1, product => do
    let next ← distribute bounds [product, base]
    multiplyOut bounds base n next

/-- `base ^ exponent`, multiplied out if it is an integer power of a sum within the limit. -/
def expandPower (bounds : Bounds) (base exponent : Expr) : Except Error Expr :=
  match exponent.constant? with
  | some n =>
    if Rational.isInteger n && base.isAdd && n ≠ 0 &&
        n.num.natAbs ≤ bounds.maxExpandExponent then do
      let expanded ← multiplyOut bounds base (n.num.natAbs - 1) base
      if n < 0 then Canonical.power bounds expanded (.integer (-1)) else return expanded
    else Canonical.power bounds base exponent
  | none => Canonical.power bounds base exponent

/-- One node with expanded children, expanded. -/
def expandNode (bounds : Bounds) : Expr → Except Error Expr
  | .add terms => return Canonical.add terms
  | .mul factors => distribute bounds factors
  | .pow base exponent => expandPower bounds base exponent
  | e => return e

/-- Expands every node of a canonical expression, children first. -/
def expandNodes (bounds : Bounds) (e : Expr) : Except Error Expr :=
  e.foldM fun node children => expandNode bounds (node.withChildren children)

end Expand

/-- The canonical form of an expression with products and powers of sums multiplied out. -/
def expand (bounds : Bounds) (e : Expr) : Memoizing Expr := do
  let canonical ← canonicalize bounds e
  let expanded ← Expand.expandNodes bounds canonical
  canonicalize bounds expanded

end ClosedForm
