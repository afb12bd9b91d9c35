import ClosedForm.Canonical.Form

/-!
# Polynomials in one symbol

A polynomial holds the coefficients other than `0` by ascending powers. The coefficients are
expressions free of the symbol, so `a*x^2 + b` is a polynomial of degree two in `x`.

`Polynomial.ofExpr` extracts the coefficients of an expression and `Polynomial.toExpr` makes
the sum of monomials again.
-/

namespace ClosedForm

/-- Coefficients by power. -/
structure Polynomial where
  /-- Powers in ascending order, each with its coefficient. -/
  coefficients : List (Nat × Expr)
  deriving DecidableEq, Repr, Inhabited

namespace Polynomial

/-- The polynomial without coefficients. -/
def zero : Polynomial := ⟨[]⟩

/-- A polynomial of degree zero, or zero. -/
def ofConstant (c : Expr) : Polynomial :=
  ⟨if c.isZero then [] else [(0, c)]⟩

/-- The symbol to a power. -/
def monomial (power : Nat) : Polynomial :=
  ⟨[(power, .one)]⟩

/-- There are no coefficients. -/
def isZero (p : Polynomial) : Bool :=
  p.coefficients.isEmpty

/-- The highest power; the zero polynomial has none. -/
def degree? (p : Polynomial) : Option Nat :=
  p.coefficients.getLast?.map Prod.fst

/-- The coefficient at a power. -/
def coefficient (p : Polynomial) (power : Nat) : Expr :=
  (p.coefficients.lookup power).getD .zero

/-- The coefficient at the highest power. -/
def leading (p : Polynomial) : Expr :=
  (p.coefficients.getLast?.map Prod.snd).getD .zero

/-- The coefficients as numbers, if all of them are. -/
def rational? (p : Polynomial) : Option (List (Nat × Rat)) :=
  p.coefficients.mapM fun t => t.2.constant?.map fun value => (t.1, value)

/-! ## Ring operations -/

/-- Adds `c` to the coefficient at `power`, which is dropped if the sum is `0`. -/
def addAt (power : Nat) (c : Expr) : List (Nat × Expr) → List (Nat × Expr)
  | [] => if c.isZero then [] else [(power, c)]
  | (other, d) :: rest =>
    if power < other then
      if c.isZero then (other, d) :: rest else (power, c) :: (other, d) :: rest
    else if power = other then
      let sum := Canonical.add [d, c]
      if sum.isZero then rest else (other, sum) :: rest
    else (other, d) :: addAt power c rest

/-- The sum of two polynomials. -/
def add (p q : Polynomial) : Polynomial :=
  ⟨q.coefficients.foldl (fun sum t => addAt t.1 t.2 sum) p.coefficients⟩

/-- Powers of this size or more are refused. -/
def exponentBound : Nat := 4294967296

/-- The power of a product of two monomials. -/
def addPowers (m n : Nat) : Except Error Nat :=
  if exponentBound ≤ m + n then throw (.unsupported (.exponentTooLarge (m + n)))
  else return m + n

/-- Adds `c * symbol ^ power` times a polynomial to a list of coefficients. -/
def addScaled (bounds : Bounds) (power : Nat) (c : Expr) (p : Polynomial)
    (sum : List (Nat × Expr)) : Except Error (List (Nat × Expr)) :=
  p.coefficients.foldlM (fun sum t => do
    let product ← Canonical.multiply bounds [c, t.2]
    let power ← addPowers power t.1
    return addAt power product sum) sum

/-- The product of two polynomials. -/
def mul (bounds : Bounds) (p q : Polynomial) : Except Error Polynomial := do
  let sum ← p.coefficients.foldlM (fun sum t => addScaled bounds t.1 t.2 q sum) []
  return ⟨sum⟩

/-- `result * base ^ n` by repeated squaring, in at most `fuel` squarings; `n` of them are
always enough. -/
def powLoop (bounds : Bounds) : Nat → Nat → Polynomial → Polynomial → Except Error Polynomial
  | 0, _, _, result => return result
  | fuel + 1, n, base, result => do
    if n = 0 then return result
    let result ← if n % 2 = 1 then mul bounds result base else pure result
    if n / 2 = 0 then return result
    let squared ← mul bounds base base
    powLoop bounds fuel (n / 2) squared result

/-- A power of a polynomial. -/
def pow (bounds : Bounds) (p : Polynomial) (n : Nat) : Except Error Polynomial :=
  powLoop bounds n n p (ofConstant .one)

/-! ## From and to expressions -/

/-- The value of an exponent that is a natural number. -/
def naturalExponent (name : String) (exponent : Expr) : Except Error Nat :=
  let refuse (reason : NonPolynomial) : Except Error Nat := throw (.nonPolynomial name reason)
  if exponent.contains name then refuse .dependentExponent
  else
    match exponent.constant? with
    | none => refuse .symbolicExponent
    | some value =>
      if !Rational.isInteger value then refuse (.fractionalExponent value)
      else if value < 0 then refuse (.negativeExponent value)
      else if exponentBound ≤ value.num.natAbs then refuse (.hugeExponent value)
      else return value.num.natAbs

/-- The polynomial of a power from the polynomial of its base. Powers of the symbol itself are
not subject to the limit on expansion. -/
def ofPower (bounds : Bounds) (name : String) (base exponent : Expr) (parts : List Polynomial) :
    Except Error Polynomial := do
  let n ← naturalExponent name exponent
  if base = .symbol name then return monomial n
  else if bounds.maxExpandExponent < n then
    throw (.nonPolynomial name (.beyondExpansionLimit n bounds.maxExpandExponent))
  else pow bounds (parts.headD zero) n

/-- The polynomial of a node from the polynomials of its children. -/
def step (bounds : Bounds) (name : String) (e : Expr) (parts : List Polynomial) :
    Except Error Polynomial :=
  if e = .symbol name then return monomial 1
  else if !e.contains name then return ofConstant e
  else
    match e with
    | .add _ => return parts.foldl add zero
    | .mul _ => parts.foldlM (mul bounds) (ofConstant .one)
    | .pow base exponent => ofPower bounds name base exponent parts
    | .function head _ => throw (.nonPolynomial name (.insideFunction head))
    | e => return ofConstant e

/-- The polynomial of a canonical expression, with coefficients as the rules leave them. -/
def ofCanonical (bounds : Bounds) (name : String) (e : Expr) : Except Error Polynomial :=
  e.foldM (step bounds name)

/-- Canonicalizes coefficients and drops those that are `0`. -/
def canonicalizeAll (bounds : Bounds) : List (Nat × Expr) → Memoizing (List (Nat × Expr))
  | [] => return []
  | (power, c) :: rest => do
    let c ← canonicalize bounds c
    let rest ← canonicalizeAll bounds rest
    return if c.isZero then rest else (power, c) :: rest

/-- The coefficients of an expression as a polynomial in a symbol. Fails if the symbol occurs
under a function, in an exponent, or to a power that is no natural number. -/
def ofExpr (bounds : Bounds) (e : Expr) (name : String) : Memoizing Polynomial := do
  let canonical ← canonicalize bounds e
  let raw ← ofCanonical bounds name canonical
  let coefficients ← canonicalizeAll bounds raw.coefficients
  return ⟨coefficients⟩

/-- The sum of the monomials, in canonical form. -/
def toExpr (bounds : Bounds) (p : Polynomial) (name : String) : Memoizing Expr :=
  canonicalize bounds (.sum (p.coefficients.map fun t =>
    .mul [t.2, .pow (.symbol name) (.integer t.1)]))

end Polynomial

end ClosedForm
