import ClosedForm.Canonical.Power

/-!
# The rules for nodes

`Canonical.apply` is the rule for functions: exact values at `0` and `1`, inverse pairs, and
the symmetry of the trigonometric functions. `Canonical.simplifyNode` picks the rule for a node
whose children are already canonical.
-/

namespace ClosedForm.Canonical

/-- The opposite of an expression with a negative coefficient. -/
def opposite? (bounds : Bounds) (e : Expr) : Except Error (Option Expr) :=
  if e.splitCoefficient.1 < 0 then
    return some (← multiply bounds [.integer (-1), e])
  else return none

/-- A function of one canonical argument that is subject to no special value. The odd
functions pull a leading minus sign out and the even one drops it. -/
def applyBySymmetry (bounds : Bounds) (f : Func) (argument : Expr) : Except Error Expr := do
  match f with
  | .cos =>
    match ← opposite? bounds argument with
    | some positive => return .call .cos positive
    | none => return .call .cos argument
  | .sin | .tan =>
    match ← opposite? bounds argument with
    | some positive => multiply bounds [.integer (-1), .call f positive]
    | none => return .call f argument
  | _ => return .call f argument

/-- The exact value of a function at `0` or `1`, or under its inverse. -/
def specialValue? (f : Func) (argument : Expr) : Option Expr :=
  match f with
  | .sin | .tan => if argument.isZero then some .zero else none
  | .cos => if argument.isZero then some .one else none
  | .exp =>
    if argument.isZero then some .one
    else
      match argument with
      | .function .ln (u :: _) => some u
      | _ => none
  | .ln =>
    if argument.isOne then some .zero
    else
      match argument with
      | .function .exp (u :: _) => some u
      | _ => none
  | .imaginaryUnit => none

/-- A function of canonical arguments. -/
def apply (bounds : Bounds) (f : Func) (arguments : List Expr) : Except Error Expr :=
  match f, arguments with
  | .imaginaryUnit, _ => return .imaginaryUnit
  | f, [argument] =>
    match specialValue? f argument with
    | some value => return value
    | none => applyBySymmetry bounds f argument
  | f, _ => throw (.arity f arguments.length)

/-- The canonical form of a node with canonical children, as far as one application of the
rule for its kind gives it. -/
def simplifyNode (bounds : Bounds) : Expr → Except Error Expr
  | .add terms => return add terms
  | .mul factors => multiply bounds factors
  | .pow base exponent => power bounds base exponent
  | .function f arguments => apply bounds f arguments
  | e => return e

end ClosedForm.Canonical
