import ClosedForm.Solve.System
import ClosedForm.Solve.Univariate
import ClosedForm.Stored.Calculus

/-!
# Polynomials and solving with the nodes that they store

The coefficients of polynomials are sums and products by the rules, which store what they make.
The solvers build the expressions for their answers node by node before these are canonicalized.
-/

namespace ClosedForm.Stored

open Session (storing)
open Storing (make making)

/-! ## Polynomials -/

/-- Adds `c` to the coefficient at `power`. -/
def addAt (power : Nat) (c : Expr) (sum : List (Nat × Expr)) : Storing (List (Nat × Expr)) := do
  match sum.lookup power with
  | some d =>
    let _ ← add [d, c]
    return Polynomial.addAt power c sum
  | none => return Polynomial.addAt power c sum

/-- The sum of two polynomials. -/
def addPolynomials (p q : Polynomial) : Storing Polynomial := do
  let sum ← q.coefficients.foldlM (fun sum t => addAt t.1 t.2 sum) p.coefficients
  return ⟨sum⟩

/-- Adds `c * symbol ^ power` times a polynomial to a list of coefficients. -/
def addScaled (bounds : Bounds) (power : Nat) (c : Expr) (p : Polynomial)
    (sum : List (Nat × Expr)) : Storing (List (Nat × Expr)) :=
  p.coefficients.foldlM (fun sum t => do
    let product ← multiply bounds [c, t.2]
    let power ← Polynomial.addPowers power t.1
    addAt power product sum) sum

/-- The product of two polynomials. -/
def multiplyPolynomials (bounds : Bounds) (p q : Polynomial) : Storing Polynomial := do
  let sum ← p.coefficients.foldlM (fun sum t => addScaled bounds t.1 t.2 q sum) []
  return ⟨sum⟩

/-- `result * base ^ n` by repeated squaring, in at most `fuel` squarings. -/
def powLoop (bounds : Bounds) : Nat → Nat → Polynomial → Polynomial → Storing Polynomial
  | 0, _, _, result => return result
  | fuel + 1, n, base, result => do
    if n = 0 then return result
    let result ← if n % 2 = 1 then multiplyPolynomials bounds result base else pure result
    if n / 2 = 0 then return result
    let squared ← multiplyPolynomials bounds base base
    powLoop bounds fuel (n / 2) squared result

/-- A power of a polynomial. -/
def powPolynomial (bounds : Bounds) (p : Polynomial) (n : Nat) : Storing Polynomial :=
  powLoop bounds n n p (.ofConstant .one)

/-- The polynomial of a power from the polynomial of its base. -/
def ofPower (bounds : Bounds) (name : String) (base exponent : Expr) (parts : List Polynomial) :
    Storing Polynomial := do
  let n ← Polynomial.naturalExponent name exponent
  if base = .symbol name then return .monomial n
  else if bounds.maxExpandExponent < n then
    throw (.nonPolynomial name (.beyondExpansionLimit n bounds.maxExpandExponent))
  else powPolynomial bounds (parts.headD .zero) n

/-- The polynomial of a node from the polynomials of its children. -/
def polynomialStep (bounds : Bounds) (name : String) (e : Expr) (parts : List Polynomial) :
    Storing Polynomial :=
  if e = .symbol name then return .monomial 1
  else if !e.contains name then return .ofConstant e
  else
    match e with
    | .add _ => parts.foldlM addPolynomials .zero
    | .mul _ => parts.foldlM (multiplyPolynomials bounds) (.ofConstant .one)
    | .pow base exponent => ofPower bounds name base exponent parts
    | .function head _ => throw (.nonPolynomial name (.insideFunction head))
    | e => return .ofConstant e

/-- Canonicalizes coefficients and drops those that are `0`. -/
def canonicalizeAll (bounds : Bounds) : List (Nat × Expr) → Request (List (Nat × Expr))
  | [] => return []
  | (power, c) :: rest => do
    let c ← canonicalize bounds c
    let rest ← canonicalizeAll bounds rest
    return if c.isZero then rest else (power, c) :: rest

/-- The coefficients of an expression as a polynomial in a symbol. -/
def polynomial (bounds : Bounds) (e : Expr) (name : String) : Request Polynomial := do
  let canonical ← canonicalize bounds e
  let raw ← storing (canonical.foldM (polynomialStep bounds name))
  let coefficients ← canonicalizeAll bounds raw.coefficients
  return ⟨coefficients⟩

/-- The sum of the monomials, in canonical form. -/
def ofPolynomial (bounds : Bounds) (p : Polynomial) (name : String) : Request Expr := do
  let symbol ← storing (make (.symbol name))
  canonicalizeNew bounds (.sum (p.coefficients.map fun t =>
    .mul [t.2, .pow symbol (.integer t.1)]))

/-! ## Equations in one unknown -/

/-- The canonical quotient. -/
def quotient (bounds : Bounds) (numerator denominator : Expr) : Request Expr :=
  canonicalizeNew bounds (.div numerator denominator)

/-- The canonical square root, `sqrt(-d)*i` for a negative number `d`. -/
def squareRoot (bounds : Bounds) (d : Expr) : Request Expr := do
  let half ← storing (make Solve.half)
  let negative : Bool := match d.constant? with
    | some value => decide (value < 0)
    | Option.none => false
  if negative then canonicalizeNew bounds (.mul [.pow (.neg d) half, .imaginaryUnit])
  else canonicalizeNew bounds (.pow d half)

/-- The roots of `a*x^2 + b*x + c` by the formula with the square root. -/
def symbolicRoots (bounds : Bounds) (a b c : Expr) : Request (List Root) := do
  let discriminant ← canonicalizeNew bounds
    (.add [.pow b (.integer 2), .mul [.integer (-4), a, c]])
  let twoA ← storing (make (Expr.mul [.integer 2, a]))
  let minusB ← storing (make (Expr.neg b))
  if discriminant.isZero then
    let root ← quotient bounds minusB twoA
    return [⟨root, 2⟩]
  else
    let radical ← squareRoot bounds discriminant
    let minusRadical ← storing (make (Expr.neg radical))
    let first ← quotient bounds (.add [minusB, minusRadical]) twoA
    let second ← quotient bounds (.add [minusB, radical]) twoA
    return [⟨first, 1⟩, ⟨second, 1⟩]

/-- The roots of a polynomial of degree two. -/
def quadraticRoots (bounds : Bounds) (p : Polynomial) : Request (List Root) :=
  let a := p.coefficient 2
  let b := p.coefficient 1
  let c := p.coefficient 0
  match a.constant?, b.constant?, c.constant? with
  | some ra, some rb, some rc =>
    match Solve.rationalRoots? ra rb rc with
    | some roots => storing (making (roots.map (·.value)) roots)
    | Option.none => symbolicRoots bounds a b c
  | _, _, _ => symbolicRoots bounds a b c

/-- Solves `e = 0` for a symbol, if the degree is at most `maxDegree`. -/
def solveUpTo (bounds : Bounds) (maxDegree : Nat) (e : Expr) (name : String) :
    Request SolutionSet := do
  let p ← polynomial bounds e name
  let degree := p.degree?.getD 0
  if maxDegree < degree then throw (.unsupported (.degreeTooHigh degree name))
  else
    match degree with
    | 0 => return if p.isZero then .all else .none
    | 1 =>
      let minusB ← storing (make (.neg (p.coefficient 0)))
      let root ← quotient bounds minusB (p.coefficient 1)
      return .roots [⟨root, 1⟩]
    | _ =>
      let roots ← quadraticRoots bounds p
      return .roots roots

/-! ## Systems of linear equations -/

/-- Each unknown as an expression in the parameters. -/
def general (bounds : Bounds) (family : SolutionFamily) : Request (List Expr) :=
  family.particular.zipIdx.mapM fun t =>
    canonicalizeNew bounds (.sum (family.termsAt t.2 t.1))

/-- The coefficient of one unknown in the canonical equation with the given number. -/
def linearCoefficient (bounds : Bounds) (unknowns : List String) (number : Nat) (equation : Expr)
    (unknown : String) : Request Rat := do
  let p ← polynomial bounds equation unknown
  if 1 < p.degree?.getD 0 then throw (.nonPolynomial unknown (.notLinear number))
  let c := p.coefficient 1
  if unknowns.any fun other => c.contains other then
    throw (.nonPolynomial unknown (.multipliesUnknowns number))
  match c.constant? with
  | some value => return value
  | none => throw (.unsupported (.nonNumericCoefficient unknown number))

/-- The canonical equation with the given number as a linear equation. -/
def linearEquation (bounds : Bounds) (unknowns : List String) (number : Nat) (equation : Expr) :
    Request LinearEquation := do
  let coefficients ← unknowns.mapM (linearCoefficient bounds unknowns number equation)
  let rest ← substituteAll bounds equation (unknowns.map fun name => (name, .zero))
  match rest.constant? with
  | some value => return ⟨coefficients, -value⟩
  | none => throw (.unsupported (.nonNumericConstant number))

/-- The equations in canonical form and as linear equations; they count from one. -/
def linearEquations (bounds : Bounds) (unknowns : List String) (equations : List Expr) :
    Request (List (Expr × LinearEquation)) :=
  equations.zipIdx.mapM fun t => do
    let canonical ← canonicalize bounds t.1
    let equation ← linearEquation bounds unknowns (t.2 + 1) canonical
    return (canonical, equation)

/-- The numbers that a solution of a system holds. -/
def solutionNumbers : SystemSolution → List Expr
  | .unique solution => solution.values
  | .family solutions => solutions.particular ++ solutions.basis.flatten

/-- Solves the equations `e = 0` for the unknowns. -/
def solveSystem (bounds : Bounds) (equations : List Expr) (unknowns : List String) :
    Request (SystemSolution × Diagnostics) := do
  let linear ← linearEquations bounds unknowns equations
  let state := Elimination.run unknowns.length (linear.map Prod.snd)
  match state.contradiction? with
  | some row => throw (.singularSystem row)
  | none =>
    let solution := LinearSystem.solution state unknowns
    let stored ← storing (making (solutionNumbers solution) solution)
    return (stored, LinearSystem.diagnostics state unknowns.length (linear.map Prod.fst))

end ClosedForm.Stored
