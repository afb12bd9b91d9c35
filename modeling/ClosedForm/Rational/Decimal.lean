/-!
# Decimal numerals

A numeral is a string of decimal digits with at most one point that counts: the digits are
read as one integer, which is divided by ten for each character after the point. A sign may
stand before the first digit, also when that digit comes after the point, and underscores
may group digits after the first one.
-/

namespace ClosedForm.Rational

/-- The value of a decimal digit. -/
def digit? (c : Char) : Option Nat :=
  if '0' ≤ c ∧ c ≤ '9' then some (c.toNat - '0'.toNat) else none

/-- Reads digits and underscores onto the number read so far. -/
def readDigits : Nat → List Char → Option Nat
  | value, [] => some value
  | value, '_' :: rest => readDigits value rest
  | value, c :: rest =>
    match digit? c with
    | some d => readDigits (10 * value + d) rest
    | none => none

/-- Reads a natural number. The first character has to be a digit. -/
def readNat : List Char → Option Nat
  | [] => none
  | '_' :: _ => none
  | digits => readDigits 0 digits

/-- Reads an integer with at most one sign. -/
def readInt : List Char → Option Int
  | '-' :: digits => (readNat digits).map fun n => -(n : Int)
  | '+' :: digits => (readNat digits).map Int.ofNat
  | digits => (readNat digits).map Int.ofNat

/-- The value of a numeral. -/
def ofDecimal? (text : List Char) : Option Rat :=
  let whole := text.takeWhile (· ≠ '.')
  let fraction := (text.dropWhile (· ≠ '.')).drop 1
  match readInt (whole ++ fraction) with
  | some value => some (mkRat value (Nat.pow 10 fraction.length))
  | none => none

end ClosedForm.Rational
