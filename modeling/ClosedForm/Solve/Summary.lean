import ClosedForm.Expr.Render
import ClosedForm.Solve.System
import ClosedForm.Solve.Univariate

/-!
# Solutions in words

Solutions as lines of text.
-/

namespace ClosedForm

/-- Numbers in square brackets, separated by commas. -/
def bracketList (numbers : List Nat) : String :=
  "[" ++ ", ".intercalate (numbers.map toString) ++ "]"

/-- One line for each solution of an equation in the named unknown. -/
def SolutionSet.summary (name : String) : SolutionSet → List String
  | none => ["No solution."]
  | all => [s!"Every value of {name} is a solution."]
  | roots rs => rs.map fun root =>
    let line := s!"{name} = {root.value.render}"
    if 1 < root.multiplicity then line ++ s!" (multiplicity {root.multiplicity})" else line

/-- The lines about the rank, the determinant and the columns. -/
def Diagnostics.summary (diagnostics : Diagnostics) : List String :=
  [s!"Rank: {diagnostics.rank}"] ++
  (match diagnostics.determinant with
    | some value => [s!"Determinant: {Rational.text value}"]
    | none => []) ++
  (if diagnostics.pivotColumns.isEmpty then []
    else [s!"Pivot columns: {bracketList diagnostics.pivotColumns}"]) ++
  (if diagnostics.freeColumns.isEmpty then []
    else [s!"Free columns: {bracketList diagnostics.freeColumns}"])

namespace SolutionFamily

/-- A parameter with its coefficient. Only a coefficient that is a natural number goes without
brackets, and `1` is not written. -/
def scaledParameter (coefficient : Expr) (parameter : String) : String :=
  if coefficient.isOne then parameter
  else
    let text := coefficient.render
    let plain := match coefficient.constant? with
      | some value => Rational.isInteger value && !(text.front? == some '-')
      | none => false
    if plain then text ++ "*" ++ parameter else "(" ++ text ++ ")*" ++ parameter

/-- One unknown in terms of the parameters; parts that are `0` are left out. -/
def line (family : SolutionFamily) (position : Nat) (name : String) : String :=
  let start := family.particular.getD position .zero
  let parts :=
    (if start.isZero then [] else [start.render]) ++
    (family.parameters.zip family.basis).filterMap fun t =>
      let c := t.2.getD position .zero
      if c.isZero then none else some (scaledParameter c t.1)
  s!"{name} = " ++ (if parts.isEmpty then "0" else " + ".intercalate parts)

end SolutionFamily

/-- The solutions of a system and what elimination found out, in lines. -/
def SystemSolution.summary (diagnostics : Diagnostics) : SystemSolution → List String
  | unique solution =>
    "Unique solution:" ::
      (solution.unknowns.zip solution.values).map (fun t => s!"{t.1} = {t.2.render}") ++
      diagnostics.summary
  | family solutions =>
    ("Infinite solutions (params: " ++ ", ".intercalate solutions.parameters ++ "):") ::
      solutions.unknowns.zipIdx.map (fun t => solutions.line t.2 t.1) ++
      diagnostics.summary

/-- The lines about a system whose equations contradict each other at a row. -/
def contradictionSummary (row : Nat) : List String :=
  ["No solution (inconsistent system).", s!"Inconsistent reduced row index: {row}"]

end ClosedForm
