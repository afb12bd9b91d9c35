import ClosedForm.Func
import ClosedForm.Rational.Text

/-!
# Errors

Every way a request can fail, as a cause with the data that explains it. `Error.message`
is the only place where an error is put into words.
-/

namespace ClosedForm

/-- What a reader of source text found wrong at some offset. -/
inductive ParseFault
  /-- No operand starts here. -/
  | expectedOperand
  /-- The name of a function is not followed by its argument list. -/
  | expectedOpenParen
  /-- A bracket or an argument list is not closed here. -/
  | expectedCloseParen
  /-- Text is left over after a complete expression. -/
  | expectedOperator
  /-- An equation has a second equality sign. -/
  | repeatedEquals
  /-- A function is applied to the wrong number of arguments. -/
  | wrongArity (function : String) (expected found : Nat)
  deriving DecidableEq, Repr

/-- Why an expression is not a polynomial in the chosen symbol. -/
inductive NonPolynomial
  | insideFunction (function : Func)
  | dependentExponent
  | symbolicExponent
  | fractionalExponent (exponent : Rat)
  | negativeExponent (exponent : Rat)
  | hugeExponent (exponent : Rat)
  | beyondExpansionLimit (exponent limit : Nat)
  /-- An equation of a linear system has degree two or more in the symbol. -/
  | notLinear (equation : Nat)
  /-- An equation of a linear system multiplies the symbol by another unknown. -/
  | multipliesUnknowns (equation : Nat)
  deriving DecidableEq, Repr

/-- Requests that are understood but have no answer here. -/
inductive Unsupported
  | exponentTooLarge (exponent : Int)
  | derivativeArity (function : Func) (found : Nat)
  | undefinedLimit (expression symbol point : String)
  | degreeTooHigh (degree : Nat) (symbol : String)
  | nonNumericCoefficient (symbol : String) (equation : Nat)
  | nonNumericConstant (equation : Nat)
  | notFinite
  /-- The form, written with the numbers it was applied to, has no real value. -/
  | notReal (form : String)
  | imaginaryValue
  deriving DecidableEq, Repr

/-- The cause of a failed request. -/
inductive Error
  | parse (offset : Nat) (fault : ParseFault)
  | divisionByZero
  | unboundSymbol (symbol : String)
  | nonPolynomial (symbol : String) (reason : NonPolynomial)
  | singularSystem (row : Nat)
  | unsupported (reason : Unsupported)
  | divergence (passes : Nat)
  | arity (function : Func) (found : Nat)
  deriving DecidableEq, Repr

/-- How many arguments were wanted and how many were given. -/
def arityMessage (function : String) (expected found : Nat) : String :=
  s!"{function} expects {expected} argument(s), found {found}"

/-- The fault in words. -/
def ParseFault.message : ParseFault → String
  | expectedOperand => "expected number, identifier or '('"
  | expectedOpenParen => "expected '(' after function name"
  | expectedCloseParen => "expected ')'"
  | expectedOperator => "expected operator or end of input"
  | repeatedEquals => "expected at most one '='"
  | wrongArity function expected found => arityMessage function expected found

/-- The reason in words, for a polynomial in `symbol`. Equations count from one. -/
def NonPolynomial.message (symbol : String) : NonPolynomial → String
  | insideFunction function => s!"`{symbol}` appears inside {function.name}"
  | dependentExponent => s!"exponent depends on `{symbol}`"
  | symbolicExponent => "symbolic exponent"
  | fractionalExponent exponent => s!"non-integer exponent {Rational.text exponent}"
  | negativeExponent exponent => s!"negative exponent {Rational.text exponent}"
  | hugeExponent exponent => s!"exponent {Rational.text exponent} is too large"
  | beyondExpansionLimit exponent limit =>
    s!"exponent {exponent} exceeds the expansion limit {limit}"
  | notLinear equation => s!"equation {equation} is not linear"
  | multipliesUnknowns equation => s!"equation {equation} multiplies unknowns together"

/-- The reason in words. -/
def Unsupported.message : Unsupported → String
  | exponentTooLarge exponent => s!"exponent {exponent} is too large"
  | derivativeArity function found =>
    s!"cannot differentiate {function.name} with {found} arguments"
  | undefinedLimit expression symbol point =>
    s!"limit of {expression} as {symbol} -> {point} is not defined by substitution"
  | degreeTooHigh degree symbol =>
    s!"degree {degree} equation in `{symbol}` has no closed-form solver here"
  | nonNumericCoefficient symbol equation =>
    s!"coefficient of `{symbol}` in equation {equation} is not a number"
  | nonNumericConstant equation => s!"constant term of equation {equation} is not a number"
  | notFinite => "result is not a finite number"
  | notReal form => s!"{form} is not a real number"
  | imaginaryValue => "the imaginary unit has no real value"

/-- The error in words. -/
def Error.message : Error → String
  | parse offset fault => s!"parse error at byte {offset}: {fault.message}"
  | divisionByZero => "division by zero"
  | unboundSymbol symbol => s!"unbound symbol `{symbol}`"
  | nonPolynomial symbol reason => s!"not a polynomial in `{symbol}`: {reason.message symbol}"
  | singularSystem row => s!"inconsistent linear system (reduced row {row})"
  | unsupported reason => s!"unsupported operation: {reason.message}"
  | divergence passes => s!"simplification did not converge after {passes} passes"
  | arity function found => arityMessage function.name function.arity found

end ClosedForm
