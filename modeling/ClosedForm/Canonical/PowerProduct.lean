import ClosedForm.Canonical.LinearForm
import ClosedForm.Error

/-!
# Products as power products

A product is brought into normal form by collecting powers of the same base. A
`PowerProduct` holds the rational coefficient and, for each base in the order of first
appearance, the exponents it occurs with. Nested products are opened on the way in.

`multiplyWith` is the rule for products over a given rule for powers.
-/

namespace ClosedForm

mutual

/-- The factors of an expression, with the products inside opened. -/
def Expr.factors : Expr → List Expr
  | .mul factors => Expr.factorsList factors
  | e => [e]

/-- The factors of the expressions, from left to right. -/
def Expr.factorsList : List Expr → List Expr
  | [] => []
  | e :: es => Expr.factors e ++ Expr.factorsList es

end

theorem Expr.factorsList_eq_flatMap (es : List Expr) :
    Expr.factorsList es = es.flatMap Expr.factors := by
  induction es with
  | nil => rfl
  | cons e es ih => simp [Expr.factorsList, ih]

/-- A coefficient and the exponents of distinct bases. -/
structure PowerProduct where
  coefficient : Rat
  /-- Bases with their exponents, both in the order of first appearance. -/
  powers : List (Expr × List Expr)
  deriving Repr, Inhabited

namespace PowerProduct

/-- The product without factors. -/
def one : PowerProduct := ⟨1, []⟩

/-- Multiplies the powers by `base ^ exponent`. -/
def addPower (base exponent : Expr) : List (Expr × List Expr) → List (Expr × List Expr)
  | [] => [(base, [exponent])]
  | (other, exponents) :: rest =>
    if other = base then (other, exponents ++ [exponent]) :: rest
    else (other, exponents) :: addPower base exponent rest

/-- Multiplies by a factor that is no product. -/
def addFactor (product : PowerProduct) : Expr → PowerProduct
  | .constant c => { product with coefficient := product.coefficient * c }
  | .pow base exponent => { product with powers := addPower base exponent product.powers }
  | e => { product with powers := addPower e .one product.powers }

/-- The power product of the factors. -/
def ofFactors (factors : List Expr) : PowerProduct :=
  (Expr.factorsList factors).foldl addFactor one

end PowerProduct

namespace Canonical

/-- The exponent that collects the exponents of one base. -/
def addExponents : List Expr → Expr
  | [exponent] => exponent
  | exponents => add exponents

/-- The product of a coefficient and powers that are no constants. A coefficient in front of
a single sum is distributed over its terms. -/
def assemble (coefficient : Rat) (powers : List Expr) : Expr :=
  if coefficient = 0 then .zero
  else
    match powers with
    | [] => .constant coefficient
    | [.add terms] =>
      if coefficient = 1 then .add terms
      else (LinearForm.gatherList coefficient .zero terms).toExpr
    | _ =>
      Expr.product (Expr.sort
        (if coefficient = 1 then powers else powers ++ [.constant coefficient]))

/-- The product of the constants among some expressions. -/
def constantPart (es : List Expr) : Rat :=
  es.foldl (fun c e => match e with
    | .constant d => c * d
    | _ => c) 1

/-- The product of canonical factors, where `power` gives canonical powers. -/
def multiplyWith (power : Expr → Expr → Except Error Expr) (factors : List Expr) :
    Except Error Expr := do
  let parts := PowerProduct.ofFactors factors
  if parts.coefficient = 0 then return .zero
  let powers ← parts.powers.mapM fun p => power p.1 (addExponents p.2)
  return assemble (parts.coefficient * constantPart powers)
    (powers.filter fun e => e.constant?.isNone)

end Canonical

end ClosedForm
