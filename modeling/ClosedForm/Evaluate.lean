import ClosedForm.Canonical.Form
import ClosedForm.Rational.Binary64

/-!
# Evaluation in floating point

`evaluate` computes the value of the canonical form of an expression with doubles for its
symbols. Values are real: a logarithm of a number that is not positive, an even root of a
negative number and the imaginary unit have none. Sums and products go from left to right.
-/

namespace ClosedForm

namespace Evaluate

/-- The number bound to a symbol. Of two bindings the last counts. -/
def lookup (bindings : List (String × Float)) (name : String) : Option Float :=
  bindings.reverse.lookup name

/-- The number is an integer. -/
def isIntegral (x : Float) : Bool :=
  x - (if x < 0.0 then x.ceil else x.floor) == 0.0

/-- The refusal of a form that has no real value. -/
def notReal (form : String) : Error :=
  .unsupported (.notReal form)

/-- The power of two numbers. An odd root of a negative number is real, and whether a root is
odd can only be told from a constant exponent. -/
def power (exponent : Expr) (b x : Float) : Except Error Float :=
  if b == 0.0 && x < 0.0 then throw .divisionByZero
  else if b >= 0.0 || isIntegral x then return b.pow x
  else
    match exponent.constant? with
    | some q =>
      if q.den % 2 = 1 then
        let magnitude := b.abs.pow x
        return if q.num.natAbs % 2 = 1 then -magnitude else magnitude
      else throw (notReal (Binary64.positional b ++ "^" ++ Binary64.positional x))
    | none => throw (notReal (Binary64.positional b ++ "^" ++ Binary64.positional x))

/-- The value of a function of one number. -/
def applyToOne (f : Func) (x : Float) : Except Error Float :=
  match f with
  | .sin => return x.sin
  | .cos => return x.cos
  | .tan => return x.tan
  | .exp => return x.exp
  | .ln =>
    if x > 0.0 then return x.log
    else throw (notReal ("ln(" ++ Binary64.positional x ++ ")"))
  | .imaginaryUnit => throw (.unsupported .imaginaryValue)

/-- The value of a function. -/
def apply (f : Func) (arguments : List Float) : Except Error Float :=
  match f, arguments with
  | .imaginaryUnit, _ => throw (.unsupported .imaginaryValue)
  | f, [x] => applyToOne f x
  | f, _ => throw (.arity f arguments.length)

/-- The value of a node from the values of its children. -/
def step (bindings : List (String × Float)) (e : Expr) (values : List Float) :
    Except Error Float :=
  match e, values with
  | .constant c, _ => return Binary64.ofRat c
  | .symbol name, _ =>
    match lookup bindings name with
    | some value => return value
    | none => throw (.unboundSymbol name)
  | .add _, _ => return values.foldl (· + ·) (-0.0)
  | .mul _, _ => return values.foldl (· * ·) 1.0
  | .pow _ exponent, [b, x] => power exponent b x
  | .pow _ _, _ => throw (.unsupported .notFinite)
  | .function f _, _ => apply f values

/-- The value of a canonical expression. -/
def ofCanonical (bindings : List (String × Float)) (e : Expr) : Except Error Float :=
  e.foldM (step bindings)

end Evaluate

/-- The value of an expression, which has to be finite. -/
def evaluate (bounds : Bounds) (e : Expr) (bindings : List (String × Float)) :
    Memoizing Float := do
  let canonical ← canonicalize bounds e
  let value ← Evaluate.ofCanonical bindings canonical
  if value.isFinite then return value
  else throw (.unsupported .notFinite)

end ClosedForm
