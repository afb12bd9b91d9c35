import ClosedForm.Error

/-!
# Rational arithmetic

Division and powers that report a zero divisor instead of giving it a value, and the
conversions between rationals and machine-sized integers.
-/

namespace ClosedForm

namespace Rational

/-- `a / b`, for `b` other than zero. -/
def divide (a b : Rat) : Except Error Rat :=
  if b = 0 then .error .divisionByZero else .ok (a / b)

/-- `1 / a`, for `a` other than zero. -/
def reciprocal (a : Rat) : Except Error Rat :=
  divide 1 a

/-- Exponents of this magnitude or more are refused by `power`. -/
def exponentBound : Nat := 4294967296

/-- `base ^ n` for an integer `n`. -/
def power (base : Rat) (n : Int) : Except Error Rat :=
  if exponentBound ≤ n.natAbs then .error (.unsupported (.exponentTooLarge n))
  else if n < 0 then reciprocal (Rat.pow base n.natAbs)
  else .ok (Rat.pow base n.natAbs)

/-- The least integer of 64 bits with sign. Its absolute value does not fit in them. -/
def leastInt64 : Int := -9223372036854775808

/-- The value of an integer that fits in 64 bits with sign. -/
def toInt64? (q : Rat) : Option Int :=
  if isInteger q && -9223372036854775808 ≤ q.num && q.num ≤ 9223372036854775807 then some q.num
  else none

/-- The product of the integers from `1` to `n`. -/
def factorial : Nat → Nat
  | 0 => 1
  | n + 1 => (n + 1) * factorial n

end Rational

/-- The refusal of a power whose exponent has no absolute value. -/
def Error.leastExponent : Error :=
  .unsupported (.exponentTooLarge Rational.leastInt64)

end ClosedForm
