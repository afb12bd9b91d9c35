import ClosedForm.Expr.Basic

/-!
# The order of expressions

Sums and products list their children in one fixed order, so that equal collections give
equal nodes. The order looks at the kind of node first (constants, symbols, functions,
powers, products, sums), then at the payload, then at the children from left to right, a
shorter list coming before its extensions.
-/

namespace ClosedForm

/-- The order of rational numbers as a three-way comparison. -/
def Rational.compare (p q : Rat) : Ordering :=
  if p < q then .lt else if p = q then .eq else .gt

namespace Expr

/-- Position of the kind of node in the order. -/
def rank : Expr → Nat
  | constant _ => 0
  | symbol _ => 1
  | function _ _ => 2
  | pow _ _ => 3
  | mul _ => 4
  | add _ => 5

mutual

/-- Three-way comparison of expressions. -/
def compare : Expr → Expr → Ordering
  | constant p, constant q => Rational.compare p q
  | symbol p, symbol q => Ord.compare p q
  | function f xs, function g ys => (Ord.compare f.rank g.rank).then (compareList xs ys)
  | pow b e, pow c f => (compare b c).then (compare e f)
  | mul xs, mul ys => compareList xs ys
  | add xs, add ys => compareList xs ys
  | a, b => Ord.compare a.rank b.rank

/-- Lists are compared element by element, then by length. -/
def compareList : List Expr → List Expr → Ordering
  | [], [] => .eq
  | [], _ :: _ => .lt
  | _ :: _, [] => .gt
  | x :: xs, y :: ys => (compare x y).then (compareList xs ys)

end

/-- `a` may stand before `b`. -/
def le (a b : Expr) : Bool :=
  (compare a b).isLE

/-- The expressions in ascending order; equal ones keep their places. -/
def sort (es : List Expr) : List Expr :=
  es.mergeSort le

/-- Sorting rearranges. -/
theorem sort_perm (es : List Expr) : (sort es).Perm es :=
  List.mergeSort_perm es le

@[simp] theorem mem_sort {e : Expr} {es : List Expr} : e ∈ sort es ↔ e ∈ es :=
  (sort_perm es).mem_iff

end Expr

end ClosedForm
