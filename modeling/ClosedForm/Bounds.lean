/-!
# Bounds on work

The three bounds that keep exact computation finite in practice. They are fixed for the
life of a session.
-/

namespace ClosedForm

/-- Bounds on the work one request may do. -/
structure Bounds where
  /-- Most passes before canonicalization gives up. -/
  maxPasses : Nat := 64
  /-- Largest power of a sum that is multiplied out. -/
  maxExpandExponent : Nat := 64
  /-- Largest magnitude of an exponent whose constant power is computed. -/
  maxExactExponent : Nat := 4096
  deriving DecidableEq, Repr, Inhabited

end ClosedForm
