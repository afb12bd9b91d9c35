import ClosedForm.Stored.Solve
import ClosedForm.Text.Source

/-!
# Sessions

The requests of a session name expressions by their handles. A request that computes reads the
expressions back from the pool, runs on them with the memo of the session, and stores every node
that it makes on the way; `Stored` has the computations with the nodes that they store.
-/

namespace ClosedForm

namespace Session

/-- Computes an expression from one behind a handle, and stores it. -/
def transform (handle : Handle) (action : Bounds → Expr → Request Expr) : Request Handle := do
  let e ← expr handle
  let result ← bounded fun bounds => action bounds e
  store result

/-- Stores a function over arguments, whose number has to be right. -/
def apply (f : Func) (arguments : List Handle) : Request Handle :=
  if arguments.length = f.arity then storing (Pool.intern (.function f arguments))
  else throw (.arity f arguments.length)

/-! ## Reading text -/

/-- Reads an expression as it is written. -/
def parse (text : String) : Request Handle :=
  storing (Pool.parse text)

/-- Reads an equation as it is written, as the difference of its sides. -/
def parseEquationRaw (text : String) : Request Handle :=
  storing (Pool.parseEquation text)

/-! ## Canonical forms -/

/-- The canonical form. -/
def canonicalize (handle : Handle) : Request Handle :=
  transform handle Stored.canonicalize

/-- The canonical form within a number of passes. -/
def canonicalizeWithin (handle : Handle) (maxPasses : Nat) : Request Handle :=
  transform handle fun bounds => Stored.canonicalizeWithin bounds maxPasses

/-- Reads an expression in canonical form. -/
def parseCanonical (text : String) : Request Handle := do
  let raw ← parse text
  canonicalize raw

/-- Reads an equation in canonical form. -/
def parseEquation (text : String) : Request Handle := do
  let raw ← parseEquationRaw text
  canonicalize raw

/-- The canonical form with products and powers of sums multiplied out. -/
def expand (handle : Handle) : Request Handle :=
  transform handle Stored.expand

/-- Replaces symbols by expressions, all at once. -/
def substituteAll (handle : Handle) (bindings : List (String × Handle)) : Request Handle := do
  let replacements ← exprs (bindings.map Prod.snd)
  transform handle fun bounds e =>
    Stored.substituteAll bounds e ((bindings.map Prod.fst).zip replacements)

/-- Replaces one symbol by an expression. -/
def substitute (handle : Handle) (name : String) (replacement : Handle) : Request Handle :=
  substituteAll handle [(name, replacement)]

/-! ## Rules on nodes that are canonical already -/

/-- The rule for sums. -/
def simplifyAdd (terms : List Handle) : Request Handle := do
  let es ← exprs terms
  let result ← storing (Stored.add es)
  store result

/-- The rule for products. -/
def simplifyMul (factors : List Handle) : Request Handle := do
  let es ← exprs factors
  let result ← bounded fun bounds => storing (Stored.multiply bounds es)
  store result

/-- The rule for powers. -/
def simplifyPow (base exponent : Handle) : Request Handle := do
  let b ← expr base
  let x ← expr exponent
  let result ← bounded fun bounds => storing (Stored.power bounds b x)
  store result

/-! ## Calculus -/

/-- The derivative. -/
def differentiate (handle : Handle) (name : String) : Request Handle :=
  transform handle fun bounds e => Stored.differentiate bounds e name

/-- The `n`-th derivative. -/
def differentiateN (handle : Handle) (name : String) (n : Nat) : Request Handle :=
  transform handle fun bounds e => Stored.differentiateN bounds e name n

/-- The limit at a point. -/
def limit (handle : Handle) (name : String) (point : Handle) : Request Handle := do
  let p ← expr point
  transform handle fun bounds e => Stored.limit bounds e name p

/-- The Taylor polynomial about a point. -/
def taylor (handle : Handle) (name : String) (point : Handle) (order : Nat) : Request Handle := do
  let p ← expr point
  transform handle fun bounds e => Stored.taylor bounds e name p order

/-- The Taylor polynomial about zero. -/
def maclaurin (handle : Handle) (name : String) (order : Nat) : Request Handle :=
  transform handle fun bounds e => Stored.maclaurin bounds e name order

/-- The value in floating point. -/
def evaluate (handle : Handle) (bindings : List (String × Float)) : Request Float := do
  let e ← expr handle
  bounded fun bounds => Stored.evaluate bounds e bindings

/-! ## Polynomials -/

/-- The coefficients as a polynomial in a symbol. -/
def polynomial (handle : Handle) (name : String) : Request Polynomial := do
  let e ← expr handle
  bounded fun bounds => Stored.polynomial bounds e name

/-- The sum of the monomials of a polynomial. -/
def ofPolynomial (p : Polynomial) (name : String) : Request Handle := do
  let e ← bounded fun bounds => Stored.ofPolynomial bounds p name
  store e

/-- The sum of two polynomials. -/
def addPolynomials (p q : Polynomial) : Request Polynomial :=
  storing (Stored.addPolynomials p q)

/-- The product of two polynomials. -/
def multiplyPolynomials (p q : Polynomial) : Request Polynomial :=
  bounded fun bounds => storing (Stored.multiplyPolynomials bounds p q)

/-- A power of a polynomial. -/
def powPolynomial (p : Polynomial) (n : Nat) : Request Polynomial :=
  bounded fun bounds => storing (Stored.powPolynomial bounds p n)

/-! ## Solving -/

/-- Solves an equation of degree at most two. -/
def solve (handle : Handle) (name : String) : Request SolutionSet := do
  let e ← expr handle
  bounded fun bounds => Stored.solveUpTo bounds 2 e name

/-- Solves an equation of degree at most one. -/
def solveLinear (handle : Handle) (name : String) : Request SolutionSet := do
  let e ← expr handle
  bounded fun bounds => Stored.solveUpTo bounds 1 e name

/-- Solves a system of linear equations. -/
def solveSystem (equations : List Handle) (unknowns : List String) :
    Request (SystemSolution × Diagnostics) := do
  let es ← exprs equations
  bounded fun bounds => Stored.solveSystem bounds es unknowns

/-- The general solution of a family. -/
def general (family : SolutionFamily) : Request (List Expr) :=
  bounded fun bounds => Stored.general bounds family

/-- The text of an expression. -/
def render (handle : Handle) : Request String := do
  let e ← expr handle
  return e.render

end Session

end ClosedForm
