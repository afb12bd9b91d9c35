import ClosedForm.Canonical.PowerProduct
import ClosedForm.Bounds
import ClosedForm.Rational.Arithmetic
import ClosedForm.Rational.Root

/-!
# Powers and products

The rule for powers. An exponent `0` or `1` and a base `1` disappear; powers of constants
are computed as far as they are exact; an integer exponent is multiplied into a power,
spread over a product, and reduced modulo four over the imaginary unit. Any other power
stays as it is.

Powers and products call each other. Each call of the rule for powers from within itself is
about a base that lies deeper than the one before, so the depth of the first base bounds
their nesting; it is the fuel of `powerWithin`.
-/

namespace ClosedForm.Canonical

/-- The integer power `i ^ n`. -/
def imaginaryPower (n : Int) : Expr :=
  match n % 4 with
  | 0 => .one
  | 1 => .imaginaryUnit
  | 2 => .integer (-1)
  | _ => .neg .imaginaryUnit

/-- Denominators of this size or more are no roots that are computed. -/
def rootBound : Nat := 4294967296

/-- The square root of a positive rational to the given half-integer exponent between `0` and
`1`: `sqrt (n/d)` is `sqrt (n*d) / d`, and square factors of `n*d` leave the root. -/
def radical (base exponent : Rat) : Expr :=
  let (outside, inside) := Rational.extractSquares (base.num * base.den)
  let coefficient := mkRat outside base.den
  if coefficient = 1 then .pow (.constant base) (.constant exponent)
  else .mul [.constant coefficient, .pow (.constant inside) (.constant exponent)]

/-- A constant to a constant power, where `multiply` gives canonical products.

Integer powers up to the limit are computed. A fractional power is computed if the root is
exact; otherwise the integral part of the exponent is split off, `b^(k + f) = b^k * b^f` with
`0 < f < 1`, and a square root gives up its square factors.

The limit is compared with the absolute value of the exponent or of its numerator, a 64-bit
integer. The least of these has no absolute value, so the power is refused. -/
def constantPower (bounds : Bounds) (multiply : List Expr → Except Error Expr)
    (base exponent : Rat) : Except Error Expr :=
  let unchanged := Expr.pow (.constant base) (.constant exponent)
  if Rational.isInteger exponent then
    if exponent.num = Rational.leastInt64 then throw .leastExponent
    else if exponent.num.natAbs ≤ bounds.maxExactExponent then
      return .constant (← Rational.power base exponent.num)
    else if base = 0 && exponent < 0 then throw .divisionByZero
    else return unchanged
  else if base = 0 then
    if 0 < exponent then return .zero else throw .divisionByZero
  else if rootBound ≤ exponent.den then return unchanged
  else if exponent.num = Rational.leastInt64 then throw .leastExponent
  else if bounds.maxExactExponent < exponent.num.natAbs then return unchanged
  else
    match Rational.root? base exponent.den with
    | some root => return .constant (← Rational.power root exponent.num)
    | none =>
      let whole := exponent.floor
      if base < 0 then return unchanged
      else if whole ≠ 0 then do
        let integral ← Rational.power base whole
        multiply [.constant integral, .pow (.constant base) (.constant (exponent - whole))]
      else if exponent.den = 2 then return radical base exponent
      else return unchanged

/-- `base ^ exponent` for a canonical base and exponent, with at most the given nesting of
calls. -/
def powerWithin (bounds : Bounds) : Nat → Expr → Expr → Except Error Expr
  | 0, base, exponent => return .pow base exponent
  | fuel + 1, base, exponent =>
    let power := powerWithin bounds fuel
    if exponent.isZero || base.isOne then return .one
    else if exponent.isOne then return base
    else
      match exponent with
      | .constant n =>
        match base with
        | .constant b => constantPower bounds (multiplyWith power) b n
        | .pow inner e =>
          if Rational.isInteger n then do
            let combined ← multiplyWith power [e, exponent]
            power inner combined
          else return .pow base exponent
        | .mul factors =>
          if Rational.isInteger n then do
            let powers ← factors.mapM fun f => power f exponent
            multiplyWith power powers
          else return .pow base exponent
        | .function .imaginaryUnit _ =>
          if Rational.isInteger n then return imaginaryPower n.num
          else return .pow base exponent
        | _ => return .pow base exponent
      | _ => return .pow base exponent

/-- `base ^ exponent` for a canonical base and exponent. -/
def power (bounds : Bounds) (base exponent : Expr) : Except Error Expr :=
  powerWithin bounds (base.depth + 1) base exponent

/-- The product of canonical factors. -/
def multiply (bounds : Bounds) (factors : List Expr) : Except Error Expr :=
  multiplyWith (powerWithin bounds ((Expr.mul factors).depth + 1)) factors

end ClosedForm.Canonical
