/-!
# Written form of rational numbers

A rational is written `n` when it is an integer and `n/d` in lowest terms otherwise, with
the sign in front.
-/

namespace ClosedForm.Rational

/-- A rational is an integer when its reduced denominator is one. -/
def isInteger (q : Rat) : Bool :=
  q.den == 1

/-- `3`, `-3/4`. -/
def text (q : Rat) : String :=
  if isInteger q then toString q.num else toString q.num ++ "/" ++ toString q.den

end ClosedForm.Rational
