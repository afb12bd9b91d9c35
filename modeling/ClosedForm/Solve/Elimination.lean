/-!
# Gauss–Jordan elimination

Exact elimination on linear equations with rational coefficients. Columns are processed from
left to right; the pivot is the entry of largest magnitude among the equations that have no
pivot yet, the first of them if there are several. After all columns each solved equation
has the coefficient `1` at its pivot, and no other equation has that unknown.

The determinant of the coefficients is followed along: a swap changes its sign and a pivot
multiplies it.
-/

namespace ClosedForm

/-- The equation `coefficients · unknowns = value`. -/
structure LinearEquation where
  coefficients : List Rat
  value : Rat
  deriving DecidableEq, Repr, Inhabited

namespace LinearEquation

/-- The coefficient of the unknown at a column. -/
def coefficientAt (equation : LinearEquation) (column : Nat) : Rat :=
  equation.coefficients.getD column 0

/-- Both sides divided by a number. -/
def divide (equation : LinearEquation) (c : Rat) : LinearEquation :=
  ⟨equation.coefficients.map (· / c), equation.value / c⟩

/-- The equation minus `c` times another one. -/
def subtract (equation : LinearEquation) (c : Rat) (other : LinearEquation) : LinearEquation :=
  ⟨List.zipWith (fun x y => x - c * y) equation.coefficients other.coefficients,
    equation.value - c * other.value⟩

/-- Removes the unknown at a column from another equation, where `unit` has the coefficient `1`
at that column. -/
def clear (unit : LinearEquation) (column : Nat) (equation : LinearEquation) : LinearEquation :=
  equation.subtract (equation.coefficientAt column) unit

/-- The equation says that zero is something else. -/
def isContradiction (equation : LinearEquation) : Bool :=
  equation.coefficients.all (· == 0) && equation.value != 0

end LinearEquation

/-- Equations in the course of elimination. -/
structure Elimination where
  /-- Solved equations with their pivot columns, in the order of solving. -/
  solved : List (Nat × LinearEquation)
  /-- Equations without a pivot yet. -/
  unsolved : List LinearEquation
  /-- The product of the pivots, with the sign of the swaps. -/
  determinant : Rat
  deriving DecidableEq, Repr, Inhabited

namespace Elimination

/-- Keeps the position and magnitude of the largest number so far. -/
def larger (best : Option Nat × Rat) (candidate : Rat × Nat) : Option Nat × Rat :=
  if best.2 < candidate.1.abs then (some candidate.2, candidate.1.abs) else best

/-- The position of the first number of largest magnitude, if one is not zero. -/
def largest? (numbers : List Rat) : Option Nat :=
  (numbers.zipIdx.foldl larger (none, 0)).1

/-- Takes the equation at a position out, the first one moving into its place, and says
whether that was a swap. -/
def takeOut (position : Nat) : List LinearEquation → Option (LinearEquation × List LinearEquation)
  | [] => none
  | first :: rest =>
    match position with
    | 0 => some (first, rest)
    | k + 1 => (rest[k]?).map fun pivot => (pivot, rest.set k first)

/-- Solves an unsolved equation for the unknown at a column, if one contains it, and removes the
unknown from all others. -/
def step (state : Elimination) (column : Nat) : Elimination :=
  match largest? (state.unsolved.map (·.coefficientAt column)) with
  | none => state
  | some position =>
    match takeOut position state.unsolved with
    | none => state
    | some (equation, others) =>
      let pivot := equation.coefficientAt column
      let unit := equation.divide pivot
      { solved := state.solved.map (fun s => (s.1, unit.clear column s.2)) ++ [(column, unit)]
        unsolved := others.map (unit.clear column)
        determinant := state.determinant * (if position = 0 then pivot else -pivot) }

/-- Eliminates the unknowns of the columns below `columns`. -/
def run (columns : Nat) (equations : List LinearEquation) : Elimination :=
  (List.range columns).foldl step ⟨[], equations, 1⟩

/-- How many equations are solved. -/
def rank (state : Elimination) : Nat :=
  state.solved.length

/-- The pivot columns, in the order of solving. -/
def pivots (state : Elimination) : List Nat :=
  state.solved.map Prod.fst

/-- The columns without a pivot, ascending. -/
def freeColumns (state : Elimination) (columns : Nat) : List Nat :=
  (List.range columns).filter fun column => !state.pivots.contains column

/-- The row of the first unsolved equation that is a contradiction. Solved equations come first in
the count. -/
def contradiction? (state : Elimination) : Option Nat :=
  (state.unsolved.findIdx? LinearEquation.isContradiction).map (state.rank + ·)

/-- The solved equation whose pivot is at a column. -/
def solvedFor? (state : Elimination) (column : Nat) : Option LinearEquation :=
  state.solved.lookup column

/-- The solution in which every free unknown is zero. -/
def particular (state : Elimination) (columns : Nat) : List Rat :=
  (List.range columns).map fun column =>
    match state.solvedFor? column with
    | some equation => equation.value
    | none => 0

/-- The direction in which the solutions move with the free unknown at `free`. -/
def direction (state : Elimination) (columns free : Nat) : List Rat :=
  (List.range columns).map fun column =>
    if column = free then 1
    else
      match state.solvedFor? column with
      | some equation => -equation.coefficientAt free
      | none => 0

end Elimination

end ClosedForm
