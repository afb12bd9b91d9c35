import ClosedForm.Polynomial

/-!
# Equations in one unknown

Equations `e = 0` that are polynomials of degree at most two in the unknown. A quadratic with
rational coefficients and a rational root has its roots computed as numbers, the lower one
first; any other has them written with a square root, the one with the negative root first.
-/

namespace ClosedForm

/-- A solution and how often it counts. -/
structure Root where
  value : Expr
  multiplicity : Nat
  deriving DecidableEq, Repr, Inhabited

/-- The solutions of an equation. -/
inductive SolutionSet
  /-- The equation says that a nonzero constant is zero. -/
  | none
  /-- The equation says that zero is zero. -/
  | all
  | roots (roots : List Root)
  deriving DecidableEq, Repr, Inhabited

/-- The distinct solutions, where there are finitely many of them. -/
def SolutionSet.values : SolutionSet → List Expr
  | roots rs => rs.map (·.value)
  | _ => []

namespace Solve

/-- The canonical quotient. -/
def quotient (bounds : Bounds) (numerator denominator : Expr) : Memoizing Expr :=
  canonicalize bounds (.div numerator denominator)

/-- One half. -/
def half : Expr := .constant (mkRat 1 2)

/-- The canonical square root, `sqrt(-d)*i` for a negative number `d`. -/
def squareRoot (bounds : Bounds) (d : Expr) : Memoizing Expr :=
  let negative : Bool := match d.constant? with
    | some value => decide (value < 0)
    | Option.none => false
  if negative then canonicalize bounds (.mul [.pow (.neg d) half, .imaginaryUnit])
  else canonicalize bounds (.pow d half)

/-- The roots of `a*x^2 + b*x + c` over the rationals, if the discriminant is a square. -/
def rationalRoots? (a b c : Rat) : Option (List Root) :=
  (Rational.sqrt? (b * b - 4 * a * c)).map fun root =>
    let first := (-b - root) / (2 * a)
    let second := (-b + root) / (2 * a)
    if root = 0 then [⟨.constant first, 2⟩]
    else if first ≤ second then [⟨.constant first, 1⟩, ⟨.constant second, 1⟩]
    else [⟨.constant second, 1⟩, ⟨.constant first, 1⟩]

/-- The roots of `a*x^2 + b*x + c` by the formula with the square root. -/
def symbolicRoots (bounds : Bounds) (a b c : Expr) : Memoizing (List Root) := do
  let discriminant ← canonicalize bounds
    (.add [.pow b (.integer 2), .mul [.integer (-4), a, c]])
  let twoA := Expr.mul [.integer 2, a]
  let minusB := Expr.neg b
  if discriminant.isZero then
    let root ← quotient bounds minusB twoA
    return [⟨root, 2⟩]
  else
    let radical ← squareRoot bounds discriminant
    let first ← quotient bounds (.add [minusB, .neg radical]) twoA
    let second ← quotient bounds (.add [minusB, radical]) twoA
    return [⟨first, 1⟩, ⟨second, 1⟩]

/-- The roots of a polynomial of degree two. -/
def quadraticRoots (bounds : Bounds) (p : Polynomial) : Memoizing (List Root) :=
  let a := p.coefficient 2
  let b := p.coefficient 1
  let c := p.coefficient 0
  match a.constant?, b.constant?, c.constant? with
  | some ra, some rb, some rc =>
    match rationalRoots? ra rb rc with
    | some roots => return roots
    | Option.none => symbolicRoots bounds a b c
  | _, _, _ => symbolicRoots bounds a b c

/-- Solves `e = 0` for a symbol, if the degree is at most `maxDegree`. -/
def upTo (bounds : Bounds) (maxDegree : Nat) (e : Expr) (name : String) :
    Memoizing SolutionSet := do
  let p ← Polynomial.ofExpr bounds e name
  let degree := p.degree?.getD 0
  if maxDegree < degree then throw (.unsupported (.degreeTooHigh degree name))
  else
    match degree with
    | 0 => return if p.isZero then .all else .none
    | 1 =>
      let root ← quotient bounds (.neg (p.coefficient 0)) (p.coefficient 1)
      return .roots [⟨root, 1⟩]
    | _ =>
      let roots ← quadraticRoots bounds p
      return .roots roots

end Solve

/-- Solves an equation of degree at most two. -/
def solve (bounds : Bounds) (e : Expr) (name : String) : Memoizing SolutionSet :=
  Solve.upTo bounds 2 e name

/-- Solves an equation of degree at most one. -/
def solveLinear (bounds : Bounds) (e : Expr) (name : String) : Memoizing SolutionSet :=
  Solve.upTo bounds 1 e name

end ClosedForm
