import ClosedForm.Canonical.Rules
import ClosedForm.Pool

/-!
# The rules with the nodes that they store

In a session the rules build their results node by node, and every node on the way is stored in
the pool, also if the rule fails later on. `Stored` has each rule with the nodes it makes, in the
order of making; what it gives is the result of the rule of that name on expressions.

Expressions stand for their handles. Making an expression stores the nodes that a rule has to
build for it, since the operands of the rule are stored already.
-/

namespace ClosedForm.Stored

open Storing (making make)

/-! ## Sums -/

mutual

/-- What is left of the terms inside an expression when their coefficients are split off. -/
def rests : Expr → List Expr
  | .constant _ => []
  | .add terms => restsList terms
  | .mul [.constant _, .add terms] => restsList terms
  | e => [e.splitCoefficient.2]

/-- What is left of the terms of a sum, from left to right. -/
def restsList : List Expr → List Expr
  | [] => []
  | e :: es => rests e ++ restsList es

end

/-- The constant and the scaled terms of a form, before they are sorted. -/
def summands (form : LinearForm) : List Expr :=
  (if form.constant = 0 then [] else [.constant form.constant]) ++
    form.terms.filterMap fun t => if t.2 = 0 then none else some (.scale t.2 t.1)

/-- A multiple of the sum of the terms. -/
def multiple (scale : Rat) (terms : List Expr) : Storing Expr :=
  let form := LinearForm.gatherList scale .zero terms
  making (restsList terms ++ summands form ++ [form.toExpr]) form.toExpr

/-- The sum of canonical terms. -/
def add (terms : List Expr) : Storing Expr :=
  multiple 1 terms

/-! ## Products and powers -/

/-- The exponent that collects the exponents of one base. -/
def addExponents : List Expr → Storing Expr
  | [exponent] => return exponent
  | exponents => add exponents

/-- The product of a coefficient and powers that are no constants. -/
def assemble (coefficient : Rat) (powers : List Expr) : Storing Expr :=
  if coefficient = 0 then return .zero
  else
    match powers with
    | [.add terms] => if coefficient = 1 then return .add terms else multiple coefficient terms
    | _ =>
      let product := Canonical.assemble coefficient powers
      making ((if coefficient = 1 then [] else [.constant coefficient]) ++ [product]) product

/-- The product of canonical factors, where `power` gives canonical powers. -/
def multiplyWith (power : Expr → Expr → Storing Expr) (factors : List Expr) : Storing Expr := do
  let parts := PowerProduct.ofFactors factors
  if parts.coefficient = 0 then return .zero
  let powers ← parts.powers.mapM fun p => do
    let exponent ← addExponents p.2
    power p.1 exponent
  assemble (parts.coefficient * Canonical.constantPart powers)
    (powers.filter fun e => e.constant?.isNone)

/-- The integer power `i ^ n`. -/
def imaginaryPower (n : Int) : Storing Expr :=
  making [.imaginaryUnit, Canonical.imaginaryPower n] (Canonical.imaginaryPower n)

/-- A constant to a constant power, where `multiply` gives canonical products. -/
def constantPower (bounds : Bounds) (multiply : List Expr → Storing Expr) (base exponent : Rat) :
    Storing Expr :=
  let unchanged := Expr.pow (.constant base) (.constant exponent)
  if Rational.isInteger exponent then
    if exponent.num = Rational.leastInt64 then throw .leastExponent
    else if exponent.num.natAbs ≤ bounds.maxExactExponent then do
      let value ← Rational.power base exponent.num
      make (.constant value)
    else if base = 0 && exponent < 0 then throw .divisionByZero
    else make unchanged
  else if base = 0 then
    if 0 < exponent then return .zero else throw .divisionByZero
  else if Canonical.rootBound ≤ exponent.den then make unchanged
  else if exponent.num = Rational.leastInt64 then throw .leastExponent
  else if bounds.maxExactExponent < exponent.num.natAbs then make unchanged
  else
    match Rational.root? base exponent.den with
    | some root => do
      let value ← Rational.power root exponent.num
      make (.constant value)
    | none =>
      let whole := exponent.floor
      if base < 0 then make unchanged
      else if whole ≠ 0 then do
        let value ← Rational.power base whole
        let integral ← make (.constant value)
        let rest ← make (.pow (.constant base) (.constant (exponent - whole)))
        multiply [integral, rest]
      else if exponent.den = 2 then make (Canonical.radical base exponent)
      else make unchanged

/-- `base ^ exponent` for a canonical base and exponent, with at most the given nesting of
calls. -/
def powerWithin (bounds : Bounds) : Nat → Expr → Expr → Storing Expr
  | 0, base, exponent => make (.pow base exponent)
  | fuel + 1, base, exponent =>
    let power := powerWithin bounds fuel
    if exponent.isZero || base.isOne then return .one
    else if exponent.isOne then return base
    else
      match exponent with
      | .constant n =>
        match base with
        | .constant b => constantPower bounds (multiplyWith power) b n
        | .pow inner e =>
          if Rational.isInteger n then do
            let combined ← multiplyWith power [e, exponent]
            power inner combined
          else make (.pow base exponent)
        | .mul factors =>
          if Rational.isInteger n then do
            let powers ← factors.mapM fun f => power f exponent
            multiplyWith power powers
          else make (.pow base exponent)
        | .function .imaginaryUnit _ =>
          if Rational.isInteger n then imaginaryPower n.num
          else make (.pow base exponent)
        | _ => make (.pow base exponent)
      | _ => make (.pow base exponent)

/-- `base ^ exponent` for a canonical base and exponent. -/
def power (bounds : Bounds) (base exponent : Expr) : Storing Expr :=
  powerWithin bounds (base.depth + 1) base exponent

/-- The product of canonical factors. -/
def multiply (bounds : Bounds) (factors : List Expr) : Storing Expr :=
  multiplyWith (powerWithin bounds ((Expr.mul factors).depth + 1)) factors

/-! ## Functions and nodes -/

/-- The opposite of an expression with a negative coefficient. -/
def opposite? (bounds : Bounds) (e : Expr) : Storing (Option Expr) := do
  let (coefficient, _) ← making [e.splitCoefficient.2] e.splitCoefficient
  if coefficient < 0 then
    let minusOne ← make (.integer (-1))
    let opposite ← multiply bounds [minusOne, e]
    return some opposite
  else return none

/-- A function of one canonical argument that is subject to no special value. -/
def applyBySymmetry (bounds : Bounds) (f : Func) (argument : Expr) : Storing Expr := do
  match f with
  | .cos =>
    match ← opposite? bounds argument with
    | some positive => make (.call .cos positive)
    | none => make (.call .cos argument)
  | .sin | .tan =>
    match ← opposite? bounds argument with
    | some positive =>
      let inner ← make (.call f positive)
      let minusOne ← make (.integer (-1))
      multiply bounds [minusOne, inner]
    | none => make (.call f argument)
  | _ => make (.call f argument)

/-- A function of canonical arguments. -/
def apply (bounds : Bounds) (f : Func) (arguments : List Expr) : Storing Expr :=
  match f, arguments with
  | .imaginaryUnit, _ => make .imaginaryUnit
  | f, [argument] =>
    match Canonical.specialValue? f argument with
    | some value => return value
    | none => applyBySymmetry bounds f argument
  | f, _ => throw (.arity f arguments.length)

/-- The canonical form of a node with canonical children, as far as one application of the
rule for its kind gives it. -/
def simplifyNode (bounds : Bounds) : Expr → Storing Expr
  | .add terms => add terms
  | .mul factors => multiply bounds factors
  | .pow base exponent => power bounds base exponent
  | .function f arguments => apply bounds f arguments
  | e => return e

end ClosedForm.Stored
