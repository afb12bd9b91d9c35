import ClosedForm.Polynomial
import ClosedForm.Solve.Elimination
import ClosedForm.Substitute

/-!
# Systems of linear equations

`solveSystem` solves equations `e = 0` for a list of unknowns. Each equation has to be linear
in the unknowns with rational coefficients. A system has no solution, one solution or a
family of solutions with a parameter for each unknown that can be chosen freely.
-/

namespace ClosedForm

/-- What elimination found out about a system. -/
structure Diagnostics where
  rank : Nat
  /-- The rows with a pivot. -/
  pivotRows : List Nat
  pivotColumns : List Nat
  /-- The columns of the unknowns that can be chosen freely. -/
  freeColumns : List Nat
  /-- The determinant of the coefficients, if there are as many equations as unknowns. -/
  determinant : Option Rat
  /-- The equations in canonical form. -/
  equations : List Expr
  deriving Repr, Inhabited

/-- The only solution of a system. -/
structure UniqueSolution where
  unknowns : List String
  values : List Expr
  deriving Repr, Inhabited

/-- The value of an unknown. -/
def UniqueSolution.valueOf? (solution : UniqueSolution) (name : String) : Option Expr :=
  (solution.unknowns.zip solution.values).lookup name

/-- The solutions `particular + t1*basis1 + t2*basis2 + …` of a system. -/
structure SolutionFamily where
  unknowns : List String
  particular : List Expr
  parameters : List String
  /-- For each parameter the direction in which it moves the solution. -/
  basis : List (List Expr)
  deriving Repr, Inhabited

/-- The solutions of a system that has some. -/
inductive SystemSolution
  | unique (solution : UniqueSolution)
  | family (solutions : SolutionFamily)
  deriving Repr, Inhabited

namespace SolutionFamily

/-- The terms of one unknown, at a position in every direction. -/
def termsAt (family : SolutionFamily) (position : Nat) (start : Expr) : List Expr :=
  start :: (family.parameters.zip family.basis).map fun t =>
    .mul [t.2.getD position .zero, .symbol t.1]

/-- Each unknown as an expression in the parameters. -/
def general (bounds : Bounds) (family : SolutionFamily) : Memoizing (List Expr) :=
  family.particular.zipIdx.mapM fun t =>
    canonicalize bounds (.sum (family.termsAt t.2 t.1))

end SolutionFamily

namespace LinearSystem

/-- `t1`, `t2` and so on without the names of unknowns. -/
def parameterNames (unknowns : List String) (count : Nat) : List String :=
  (((List.range (count + unknowns.length)).map fun i => "t" ++ toString (i + 1)).filter
    fun name => !unknowns.contains name).take count

/-- The coefficient of one unknown in the canonical equation with the given number. -/
def coefficient (bounds : Bounds) (unknowns : List String) (number : Nat) (equation : Expr)
    (unknown : String) : Memoizing Rat := do
  let p ← Polynomial.ofExpr bounds equation unknown
  if 1 < p.degree?.getD 0 then throw (.nonPolynomial unknown (.notLinear number))
  let c := p.coefficient 1
  if unknowns.any fun other => c.contains other then
    throw (.nonPolynomial unknown (.multipliesUnknowns number))
  match c.constant? with
  | some value => return value
  | none => throw (.unsupported (.nonNumericCoefficient unknown number))

/-- The canonical equation with the given number as a linear equation. -/
def linearEquation (bounds : Bounds) (unknowns : List String) (number : Nat) (equation : Expr) :
    Memoizing LinearEquation := do
  let coefficients ← unknowns.mapM (coefficient bounds unknowns number equation)
  let rest ← substituteAll bounds equation (unknowns.map fun name => (name, .zero))
  match rest.constant? with
  | some value => return ⟨coefficients, -value⟩
  | none => throw (.unsupported (.nonNumericConstant number))

/-- The equations in canonical form and as linear equations; they count from one. -/
def linearEquations (bounds : Bounds) (unknowns : List String) (equations : List Expr) :
    Memoizing (List (Expr × LinearEquation)) :=
  equations.zipIdx.mapM fun t => do
    let canonical ← canonicalize bounds t.1
    let equation ← linearEquation bounds unknowns (t.2 + 1) canonical
    return (canonical, equation)

/-- The result of elimination in figures. The determinant of a system of less than full rank
is zero. -/
def diagnostics (state : Elimination) (unknowns : Nat) (equations : List Expr) : Diagnostics where
  rank := state.rank
  pivotRows := List.range state.rank
  pivotColumns := state.pivots
  freeColumns := state.freeColumns unknowns
  determinant :=
    if equations.length = unknowns then
      some (if state.rank < unknowns then 0 else state.determinant)
    else none
  equations := equations

/-- The solutions that elimination found, for a system without contradiction. -/
def solution (state : Elimination) (unknowns : List String) : SystemSolution :=
  let columns := unknowns.length
  let particular := (state.particular columns).map .constant
  if state.rank = columns then .unique ⟨unknowns, particular⟩
  else
    let free := state.freeColumns columns
    .family {
      unknowns := unknowns
      particular := particular
      parameters := parameterNames unknowns free.length
      basis := free.map fun column => (state.direction columns column).map .constant }

end LinearSystem

/-- Solves the equations `e = 0` for the unknowns. Fails if the equations contradict each
other. -/
def solveSystem (bounds : Bounds) (equations : List Expr) (unknowns : List String) :
    Memoizing (SystemSolution × Diagnostics) := do
  let linear ← LinearSystem.linearEquations bounds unknowns equations
  let state := Elimination.run unknowns.length (linear.map Prod.snd)
  match state.contradiction? with
  | some row => throw (.singularSystem row)
  | none =>
    return (LinearSystem.solution state unknowns,
      LinearSystem.diagnostics state unknowns.length (linear.map Prod.fst))

end ClosedForm
