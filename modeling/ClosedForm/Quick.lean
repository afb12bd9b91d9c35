import ClosedForm.Session
import ClosedForm.Solve.Summary

/-!
# Requests on text

Each request here runs in a session of its own with the usual bounds, takes its input as text
and gives expressions or text back.
-/

namespace ClosedForm

namespace Quick

/-- The answer of a new session. -/
def ask {α : Type} (request : Request α) : Except Error α :=
  ((Session.new {}).answer request).1

/-- The expression a text states. -/
def parse (text : String) : Except Error Expr :=
  ask do
    let handle ← Session.parse text
    Session.expr handle

/-- The canonical form of a text. -/
def simplify (text : String) : Except Error Expr :=
  ask do
    let handle ← Session.parseCanonical text
    Session.expr handle

/-- The derivative of a text. -/
def differentiate (text name : String) : Except Error Expr :=
  ask do
    let handle ← Session.parse text
    let derivative ← Session.differentiate handle name
    Session.expr derivative

/-- The expanded form of a text. -/
def expand (text : String) : Except Error Expr :=
  ask do
    let handle ← Session.parse text
    let expanded ← Session.expand handle
    Session.expr expanded

/-- The limit of a text at a point given as text. -/
def limit (text name point : String) : Except Error Expr :=
  ask do
    let handle ← Session.parse text
    let p ← Session.parseCanonical point
    let value ← Session.limit handle name p
    Session.expr value

/-- The Taylor polynomial of a text about a point given as text. -/
def taylor (text name point : String) (order : Nat) : Except Error Expr :=
  ask do
    let handle ← Session.parse text
    let p ← Session.parseCanonical point
    let value ← Session.taylor handle name p order
    Session.expr value

/-- The value of a text in floating point. -/
def evaluate (text : String) (bindings : List (String × Float)) : Except Error Float :=
  ask do
    let handle ← Session.parse text
    Session.evaluate handle bindings

/-- The solutions of an equation in one unknown, in lines. -/
def solve (equation name : String) : Except Error (List String) :=
  ask do
    let handle ← Session.parseEquation equation
    let solutions ← Session.solve handle name
    return solutions.summary name

/-- Reads equations and solves them as a linear system. -/
def readSystem (unknowns equations : List String) : Request (SystemSolution × Diagnostics) := do
  let handles ← equations.mapM Session.parseEquation
  Session.solveSystem handles unknowns

/-- The solutions of a linear system, in lines. A contradiction is put into lines as well. -/
def solveEquations (unknowns equations : List String) : Except Error (List String) :=
  match ask (readSystem unknowns equations) with
  | .ok (solution, diagnostics) => .ok (solution.summary diagnostics)
  | .error (.singularSystem row) => .ok (contradictionSummary row)
  | .error e => .error e

/-- A text that was rendered and read again. -/
structure RoundTrip where
  text : String
  again : String
  /-- Both readings have the same canonical form. -/
  same : Bool

/-- Reads a text, renders its canonical form, and reads that in the same session. -/
def roundTrip (text : String) : Except Error RoundTrip :=
  ask do
    let first ← Session.parseCanonical text
    let rendered ← Session.render first
    let second ← Session.parseCanonical rendered
    let again ← Session.render second
    return ⟨rendered, again, first == second⟩

end Quick

end ClosedForm
