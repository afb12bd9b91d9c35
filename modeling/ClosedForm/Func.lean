/-!
# Named functions

The functions an expression can apply. The imaginary unit is the one function without an
argument, so that it shares the treatment of the others in traversals.
-/

namespace ClosedForm

/-- A function that can head an expression. -/
inductive Func
  | sin
  | cos
  | tan
  | exp
  | ln
  /-- The constant `i`. -/
  | imaginaryUnit
  deriving DecidableEq, Hashable, Repr, Inhabited

namespace Func

/-- The name written in front of the argument. -/
def name : Func → String
  | sin => "sin"
  | cos => "cos"
  | tan => "tan"
  | exp => "exp"
  | ln => "ln"
  | imaginaryUnit => "i"

/-- How many arguments the function takes. -/
def arity : Func → Nat
  | imaginaryUnit => 0
  | _ => 1

/-- Position of the function in the order of expressions. -/
def rank : Func → Nat
  | sin => 0
  | cos => 1
  | tan => 2
  | exp => 3
  | ln => 4
  | imaginaryUnit => 5

/-- The function that a name applied to arguments stands for. `log` is another name of the
natural logarithm; the imaginary unit is not applied, so its name is not one of these. -/
def ofName? : String → Option Func
  | "sin" => some sin
  | "cos" => some cos
  | "tan" => some tan
  | "exp" => some exp
  | "ln" => some ln
  | "log" => some ln
  | _ => none

end Func

end ClosedForm
