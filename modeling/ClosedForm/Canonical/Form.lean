import ClosedForm.Canonical.Rules

/-!
# Canonical forms

The canonical form of an expression is reached by passes: each pass applies the rules to
all subexpressions, children first, and passes are repeated until one changes nothing.

Forms that were reached are kept in a `Memo`. A pass takes the form of a subexpression from
there if it has one, and an expression that is in the memo is not simplified again. Only a
completed canonicalization adds to the memo: the expression, the forms it went through and
the canonical form itself, all of which lead to the canonical form.
-/

namespace ClosedForm

/-- Expressions with their canonical forms; of two entries for an expression the first
counts. -/
structure Memo where
  entries : List (Expr × Expr)
  deriving Repr, Inhabited

namespace Memo

/-- The memo that knows no expression. -/
def empty : Memo := ⟨[]⟩

/-- The canonical form of an expression, if it is known. -/
def find? (memo : Memo) (e : Expr) : Option Expr :=
  memo.entries.lookup e

/-- Records the canonical form of the expressions that lead to it, and of itself. -/
def record (memo : Memo) (seen : List Expr) (canonical : Expr) : Memo :=
  ⟨seen.map (fun e => (e, canonical)) ++ (canonical, canonical) :: memo.entries⟩

@[simp] theorem find?_empty (e : Expr) : empty.find? e = none := rfl

theorem lookup_cons_eq (entries : List (Expr × Expr)) (raw canonical e : Expr) :
    ((raw, canonical) :: entries).lookup e =
      if e = raw then some canonical else entries.lookup e := by
  by_cases h : e = raw
  · simp [h]
  · simp [List.lookup_cons, h, beq_eq_false_iff_ne.mpr h]

/-- After recording, the recorded expressions and the canonical form lead to the canonical
form, and every other expression leads where it did. -/
theorem find?_record (memo : Memo) (seen : List Expr) (canonical e : Expr) :
    (memo.record seen canonical).find? e =
      if e ∈ seen ∨ e = canonical then some canonical else memo.find? e := by
  induction seen with
  | nil => simp [record, find?, lookup_cons_eq]
  | cons s seen ih =>
    simp only [record, find?] at ih
    simp only [record, find?, List.map_cons, List.cons_append, lookup_cons_eq, ih]
    by_cases h : e = s <;> simp [h]

end Memo

/-- A computation that may record canonical forms and may fail; what was recorded before a
failure stays. -/
abbrev Memoizing := ExceptT Error (StateM Memo)

namespace Canonical

/-- One step of a pass: the form of a subexpression from the memo, or by the rule for the
node over the new children. -/
def passStep (bounds : Bounds) (memo : Memo) (e : Expr) (children : List Expr) :
    Except Error Expr :=
  match memo.find? e with
  | some canonical => return canonical
  | none => simplifyNode bounds (e.withChildren children)

/-- Simplifies every subexpression once, children first. -/
def pass (bounds : Bounds) (memo : Memo) (e : Expr) : Except Error Expr :=
  e.foldM (passStep bounds memo)

/-- Repeats passes from `current` until one changes nothing or arrives at a form that the memo
knows. `seen` are the forms so far. Fails when the passes allowed are used up; `maxPasses` is
how many there were. -/
def settle (bounds : Bounds) (memo : Memo) (maxPasses : Nat) :
    Nat → List Expr → Expr → Except Error (Expr × List Expr)
  | 0, _, _ => throw (.divergence maxPasses)
  | passes + 1, seen, current => do
    let next ← pass bounds memo current
    if next = current then return (next, seen)
    else
      match memo.find? next with
      | some canonical => return (canonical, seen)
      | none => settle bounds memo maxPasses passes (next :: seen) next

end Canonical

/-- The canonical form of an expression, within a number of passes. -/
def canonicalizeWithin (bounds : Bounds) (maxPasses : Nat) (e : Expr) : Memoizing Expr := do
  let memo ← get
  match memo.find? e with
  | some canonical => return canonical
  | none =>
    let (canonical, seen) ← Canonical.settle bounds memo maxPasses maxPasses [e] e
    set (memo.record seen canonical)
    return canonical

/-- The canonical form of an expression. -/
def canonicalize (bounds : Bounds) (e : Expr) : Memoizing Expr :=
  canonicalizeWithin bounds bounds.maxPasses e

end ClosedForm
