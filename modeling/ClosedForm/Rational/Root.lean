/-!
# Exact roots

`natRoot n v` is the largest integer whose `n`-th power is at most `v`, found bit by bit from
the top. A rational has a rational `n`-th root exactly when its reduced numerator and
denominator both have integer ones, which is what `root?` tests.

`extractSquares v` writes `v` as `outside * outside * inside`, dividing out every square of
a number up to `squareBound`.
-/

namespace ClosedForm.Rational

/-! ## Integer roots -/

/-- Raises `root` by the powers of two below `2 ^ bits`, from the largest down, as long as
the `n`-th power stays at most `v`. -/
def refineRoot (n v : Nat) : Nat → Nat → Nat
  | 0, root => root
  | bits + 1, root =>
    let raised := root + Nat.pow 2 bits
    refineRoot n v bits (if Nat.pow raised n ≤ v then raised else root)

/-- The `n`-th root of `v` rounded down, for `n` at least one. -/
def natRoot (n v : Nat) : Nat :=
  refineRoot n v (v.log2 / n + 1) 0

/-- The number whose `n`-th power is `v`, for `n` at least one. Numbers below `2 ^ n` other
than `0` and `1` have none, and for those no root is searched. -/
def exactNatRoot? (n v : Nat) : Option Nat :=
  if v ≤ 1 then some v
  else if v.log2 < n then none
  else
    let root := natRoot n v
    if Nat.pow root n = v then some root else none

/-! ## Rational roots -/

/-- The rational whose `n`-th power is `q`, the non-negative one if `n` is even. There is
none for `n = 0`. -/
def root? (q : Rat) (n : Nat) : Option Rat :=
  if n = 0 then none
  else if q < 0 && n % 2 == 0 then none
  else
    match exactNatRoot? n q.num.natAbs, exactNatRoot? n q.den with
    | some num, some den => some (mkRat (if q < 0 then -(num : Int) else num) den)
    | _, _ => none

/-- The non-negative rational whose square is `q`. -/
def sqrt? (q : Rat) : Option Rat :=
  root? q 2

/-! ## Square factors -/

/-- Squares of numbers beyond this bound are not searched for. -/
def squareBound : Nat := 10000

/-- Moves factors `p * p` from `inside` to `outside`, at most `fuel` of them. -/
def divideSquare (p : Nat) : Nat → Nat → Nat → Nat × Nat
  | 0, outside, inside => (outside, inside)
  | fuel + 1, outside, inside =>
    if inside % (p * p) = 0 then divideSquare p fuel (outside * p) (inside / (p * p))
    else (outside, inside)

/-- Tries `p` and then the odd numbers after it up to `squareBound`, at most `fuel`
candidates in all, and stops where `p * p` exceeds what is left inside. -/
def extractFrom : Nat → Nat → Nat → Nat → Nat × Nat
  | 0, _, outside, inside => (outside, inside)
  | fuel + 1, p, outside, inside =>
    if squareBound < p || inside < p * p then (outside, inside)
    else
      let (outside, inside) := divideSquare p (inside.log2 + 1) outside inside
      extractFrom fuel (if p = 2 then 3 else p + 2) outside inside

/-- `(outside, inside)` with `outside * outside * inside = v`. A number that is not positive
stays inside whole. -/
def extractSquares (v : Int) : Nat × Int :=
  if v ≤ 0 then (1, v)
  else
    let (outside, inside) := extractFrom squareBound 2 1 v.natAbs
    (outside, inside)

end ClosedForm.Rational
