import ClosedForm.Rational.Text

/-!
# Binary floating point numbers of 64 bits

* `nearest` rounds a rational to the nearest double, a tie going to the even significand.
  `ofInt` converts an integer by way of its leading 64 bits, and `ofRat` a rational by way of
  its numerator and denominator.
* `parts` reads a double as `significand * 2 ^ exponent`.
* `scientific` writes a double with twelve significant digits, and `positional` with the
  fewest digits that read back to the same double.
-/

namespace ClosedForm.Binary64

/-! ## Rounding -/

/-- `num / den` rounded to an integer, a half going to the even neighbour. -/
def roundHalfEven (num den : Nat) : Nat :=
  let floor := num / den
  let twice := 2 * (num % den)
  if twice < den then floor
  else if den < twice then floor + 1
  else if floor % 2 = 0 then floor
  else floor + 1

/-- The fraction `num / den * 2 ^ (-exponent)`, as a numerator and a denominator. -/
def scaled (num den : Nat) (exponent : Int) : Nat × Nat :=
  if exponent < 0 then (num * Nat.pow 2 exponent.natAbs, den)
  else (num, den * Nat.pow 2 exponent.natAbs)

/-- The exponent of the last place of the doubles around `num / den`: the one for which the
significand has 53 bits, but not below the one of the smallest doubles. -/
def lastPlace (num den : Nat) : Int :=
  let guess : Int := (num.log2 : Int) - den.log2 - 52
  let (n, d) := scaled num den guess
  max (if n / d < Nat.pow 2 52 then guess - 1 else guess) (-1074)

/-- The bits of positive infinity. -/
def infinityBits : Nat := 0x7ff0000000000000

/-- The bits of the double nearest to `num / den`, for a positive denominator; infinity from
half a place above the largest double on. -/
def nearest (num den : Nat) : Nat :=
  if num = 0 then 0
  else
    let exponent := lastPlace num den
    let (n, d) := scaled num den exponent
    let significand := roundHalfEven n d
    min infinityBits ((exponent + 1074).toNat * Nat.pow 2 52 + significand)

/-- The double nearest to `num / den` with a sign in front. -/
def ofFraction (negative : Bool) (num den : Nat) : Float :=
  let magnitude := nearest num den
  Float.ofBits (UInt64.ofNat (if negative then Nat.pow 2 63 + magnitude else magnitude))

/-! ## Integers of many words

An integer of more than 64 bits is condensed to its leading 64 before it is rounded. The last
of these then stands for what follows, so that rounding can tell a half from more than a half.
What follows is not looked at in full: of each word of 64 bits below the leading one only as
many low bits count as the leading word has bits.
-/

/-- The number of bits in a word. -/
def wordBits : Nat := 64

/-- One of the `count` lowest bits is set in one of the `words` lowest words of `n`. -/
def anyLowBit (count : Nat) : Nat → Nat → Bool
  | 0, _ => false
  | words + 1, n =>
    n % Nat.pow 2 count != 0 || anyLowBit count words (n / Nat.pow 2 wordBits)

/-- An integer with zeros below its leading 64 bits. The last of the leading bits is set if it
was or if one of the bits below that count is. -/
def condense (n : Nat) : Nat :=
  if n.log2 < wordBits then n
  else
    let unit := Nat.pow 2 (n.log2 + 1 - wordBits)
    let leading := n / unit
    let inLeadingWord := n.log2 % wordBits + 1
    let wordsBelow := n.log2 / wordBits
    if leading % 2 = 0 && anyLowBit inLeadingWord wordsBelow n then (leading + 1) * unit
    else leading * unit

/-- The double for an integer: the nearest one to what `condense` leaves of it. -/
def ofInt (n : Int) : Float :=
  ofFraction (n < 0) (condense n.natAbs) 1

/-- The double for a rational: the quotient of the doubles for its numerator and its
denominator, or the double nearest to the rational itself where one of those is infinite. -/
def ofRat (q : Rat) : Float :=
  let num := ofInt q.num
  let den := ofInt q.den
  if num.isFinite && den.isFinite then num / den
  else ofFraction (q.num < 0) q.num.natAbs q.den

/-! ## Reading the parts of a double -/

/-- The sign bit of a double. -/
def isNegative (x : Float) : Bool :=
  Nat.pow 2 63 ≤ x.toBits.toNat

/-- The magnitude of a finite double as a significand and the exponent of two of its last
place. -/
def parts (x : Float) : Nat × Int :=
  let bits := x.toBits.toNat % Nat.pow 2 63
  let biased := bits / Nat.pow 2 52
  let fraction := bits % Nat.pow 2 52
  if biased = 0 then (fraction, -1074) else (Nat.pow 2 52 + fraction, (biased : Int) - 1075)

/-- `significand * 2 ^ exponent` as a fraction. -/
def fraction (significand : Nat) (exponent : Int) : Nat × Nat :=
  if exponent < 0 then (significand, Nat.pow 2 exponent.natAbs)
  else (significand * Nat.pow 2 exponent.natAbs, 1)

/-! ## Decimal digits -/

/-- `num / den * 10 ^ (-exponent)`, as a numerator and a denominator. -/
def decimalScaled (num den : Nat) (exponent : Int) : Nat × Nat :=
  if exponent < 0 then (num * Nat.pow 10 exponent.natAbs, den)
  else (num, den * Nat.pow 10 exponent.natAbs)

/-- Lowers or raises `exponent` until `10 ^ exponent ≤ num / den < 10 ^ (exponent + 1)`, in at
most `fuel` steps. -/
def adjustMagnitude (num den : Nat) : Nat → Int → Int
  | 0, exponent => exponent
  | fuel + 1, exponent =>
    let (n, d) := decimalScaled num den exponent
    if n < d then adjustMagnitude num den fuel (exponent - 1)
    else if 10 * d ≤ n then adjustMagnitude num den fuel (exponent + 1)
    else exponent

/-- The decimal exponent of the leading digit of a positive fraction. -/
def magnitude (num den : Nat) : Int :=
  adjustMagnitude num den 8 (((num.log2 : Int) - den.log2) * 30103 / 100000)

/-- Decimal digits, most significant first. -/
def digits (n : Nat) : List Char :=
  Nat.toDigits 10 n

/-- The digits after the leading one, in twelve significant digits. -/
def scientificPlaces : Nat := 11

/-- Twelve significant digits and the exponent of ten of the leading one: `1.25000000000e1`. -/
def scientific (x : Float) : String :=
  let sign := if isNegative x then "-" else ""
  let (significand, exponent) := parts x
  let (num, den) := fraction significand exponent
  let (value, power) : Nat × Int :=
    if num = 0 then (0, 0)
    else
      let power := magnitude num den
      let (n, d) := decimalScaled num den (power - scientificPlaces)
      let value := roundHalfEven n d
      if Nat.pow 10 (scientificPlaces + 1) ≤ value then (value / 10, power + 1)
      else (value, power)
  let all := digits value
  let padded := all ++ List.replicate (scientificPlaces + 1 - all.length) '0'
  sign ++ String.ofList (padded.take 1) ++ "." ++ String.ofList (padded.drop 1) ++ "e" ++
    toString power

/-! ## The fewest digits that read back -/

/-- The decimal `value * 10 ^ power` rounds to the double with these bits. -/
def readsBack (bits : Nat) (value : Nat) (power : Int) : Bool :=
  let (n, d) := if power < 0 then (value, Nat.pow 10 power.natAbs)
    else (value * Nat.pow 10 power.natAbs, 1)
  nearest n d == bits

/-- `num / den` rounded to an integer, a half going up. -/
def roundHalfUp (num den : Nat) : Nat :=
  (2 * num + den) / (2 * den)

/-- The shortest decimal that rounds to the positive fraction `num / den` with these bits:
grids of ever smaller step are tried, and on each the two neighbours of the fraction, the
nearer one first. Halfway between two neighbours that both read back, the upper one counts as
the nearer. -/
def shortestFrom (bits num den : Nat) (power : Int) : Nat → Nat × Int
  | 0 => (0, 0)
  | fuel + 1 =>
    let (n, d) := decimalScaled num den power
    let low := n / d
    let near := roundHalfUp n d
    let far := if near = low then low + 1 else low
    if readsBack bits near power then (near, power)
    else if readsBack bits far power then (far, power)
    else shortestFrom bits num den (power - 1) fuel

/-- The fewest decimal digits that read back to the double, and the exponent of ten of the
last one. The first grid is the one above the leading digit, where the upper neighbour is the
next power of ten: a double just below that power may be written as it. So no result ends in a
zero, for the grid above would have had the same number. Seventeen digits are always enough,
so eighteen grids are. -/
def shortest (x : Float) : Nat × Int :=
  let (significand, exponent) := parts x
  let (num, den) := fraction significand exponent
  if num = 0 then (0, 0)
  else shortestFrom (x.toBits.toNat % Nat.pow 2 63) num den (magnitude num den + 1) 18

/-- The digits of `value * 10 ^ power` without an exponent, with a point only where a digit
follows it. -/
def plain (value : Nat) (power : Int) : String :=
  if 0 ≤ power then
    String.ofList (digits value ++ List.replicate (if value = 0 then 0 else power.toNat) '0')
  else
    let places := power.natAbs
    let all := digits value
    let padded := List.replicate (places + 1 - all.length) '0' ++ all
    let whole := padded.take (padded.length - places)
    let rest := padded.drop (padded.length - places)
    String.ofList whole ++ "." ++ String.ofList rest

/-- The shortest text without an exponent that reads back to the same double. -/
def positional (x : Float) : String :=
  if x.isNaN then "NaN"
  else
    let sign := if isNegative x then "-" else ""
    if x.isInf then sign ++ "inf"
    else
      let (value, power) := shortest x
      sign ++ plain value power

end ClosedForm.Binary64
