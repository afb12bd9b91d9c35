import ClosedForm.Request
import ClosedForm.Stored.Rules

/-!
# Canonical forms with the nodes that the passes store

The passes of `Canonical.pass` and `Canonical.settle` with the rules that store what they make.
`Stored.canonicalize` looks canonical forms up in the memo of the session and records them there.
-/

namespace ClosedForm.Stored

/-- One step of a pass: the form of a subexpression from the memo, or by the rule for the
node over the new children. -/
def passStep (bounds : Bounds) (memo : Memo) (e : Expr) (children : List Expr) : Storing Expr :=
  match memo.find? e with
  | some canonical => return canonical
  | none => simplifyNode bounds (e.withChildren children)

/-- Simplifies every subexpression once, children first. -/
def pass (bounds : Bounds) (memo : Memo) (e : Expr) : Storing Expr :=
  e.foldM (passStep bounds memo)

/-- Repeats passes from `current` until one changes nothing or arrives at a form that the memo
knows. -/
def settle (bounds : Bounds) (memo : Memo) (maxPasses : Nat) :
    Nat → List Expr → Expr → Storing (Expr × List Expr)
  | 0, _, _ => throw (.divergence maxPasses)
  | passes + 1, seen, current => do
    let next ← pass bounds memo current
    if next = current then return (next, seen)
    else
      match memo.find? next with
      | some canonical => return (canonical, seen)
      | none => settle bounds memo maxPasses passes (next :: seen) next

/-- The canonical form of a stored expression, within a number of passes. -/
def canonicalizeWithin (bounds : Bounds) (maxPasses : Nat) (e : Expr) : Request Expr := do
  let memo ← Session.memoizing get
  match memo.find? e with
  | some canonical => return canonical
  | none =>
    let (canonical, seen) ← Session.storing (settle bounds memo maxPasses maxPasses [e] e)
    Session.memoizing (set (memo.record seen canonical))
    return canonical

/-- The canonical form of a stored expression. -/
def canonicalize (bounds : Bounds) (e : Expr) : Request Expr :=
  canonicalizeWithin bounds bounds.maxPasses e

/-- The canonical form of an expression that is made for it. -/
def canonicalizeNew (bounds : Bounds) (e : Expr) : Request Expr := do
  let raw ← Session.storing (Storing.make e)
  canonicalize bounds raw

end ClosedForm.Stored
