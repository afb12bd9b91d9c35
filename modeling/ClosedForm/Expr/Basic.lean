import ClosedForm.Func

/-!
# Expressions

An expression is a rational constant, a symbol, a sum, a product, a power or a function
applied to arguments. Differences and quotients have no node of their own: `a - b` is
`a + (-1)*b` and `a/b` is `a * b^(-1)`.

The builders `Expr.sum` and `Expr.product` collapse an empty or one-element list, so they
never make a degenerate node; the constructors `add` and `mul` do, if asked to.
`Expr.induction` is the induction principle that all recursion over expressions follows.
-/

namespace ClosedForm

/-- An exact symbolic expression. -/
inductive Expr
  | constant (value : Rat)
  | symbol (name : String)
  | add (terms : List Expr)
  | mul (factors : List Expr)
  | pow (base exponent : Expr)
  | function (head : Func) (arguments : List Expr)
  deriving Repr, Inhabited

namespace Expr

/-! ## Equality -/

mutual

/-- Structural equality is decidable. -/
def decEq : (a b : Expr) → Decidable (a = b)
  | constant p, constant q =>
    if h : p = q then .isTrue (by rw [h]) else .isFalse (by simp [h])
  | symbol p, symbol q =>
    if h : p = q then .isTrue (by rw [h]) else .isFalse (by simp [h])
  | add ps, add qs =>
    match decEqList ps qs with
    | .isTrue h => .isTrue (by rw [h])
    | .isFalse h => .isFalse (by simp [h])
  | mul ps, mul qs =>
    match decEqList ps qs with
    | .isTrue h => .isTrue (by rw [h])
    | .isFalse h => .isFalse (by simp [h])
  | pow b e, pow c f =>
    match decEq b c with
    | .isTrue hb =>
      match decEq e f with
      | .isTrue he => .isTrue (by rw [hb, he])
      | .isFalse he => .isFalse (by simp [he])
    | .isFalse hb => .isFalse (by simp [hb])
  | function f ps, function g qs =>
    if h : f = g then
      match decEqList ps qs with
      | .isTrue hs => .isTrue (by rw [h, hs])
      | .isFalse hs => .isFalse (by simp [hs])
    else .isFalse (by simp [h])
  | constant _, symbol _ | constant _, add _ | constant _, mul _ | constant _, pow _ _
  | constant _, function _ _ | symbol _, constant _ | symbol _, add _ | symbol _, mul _
  | symbol _, pow _ _ | symbol _, function _ _ | add _, constant _ | add _, symbol _
  | add _, mul _ | add _, pow _ _ | add _, function _ _ | mul _, constant _
  | mul _, symbol _ | mul _, add _ | mul _, pow _ _ | mul _, function _ _
  | pow _ _, constant _ | pow _ _, symbol _ | pow _ _, add _ | pow _ _, mul _
  | pow _ _, function _ _ | function _ _, constant _ | function _ _, symbol _
  | function _ _, add _ | function _ _, mul _ | function _ _, pow _ _ =>
    .isFalse (by simp)

/-- Equality of lists of expressions, element by element. -/
def decEqList : (as bs : List Expr) → Decidable (as = bs)
  | [], [] => .isTrue rfl
  | [], _ :: _ => .isFalse (by simp)
  | _ :: _, [] => .isFalse (by simp)
  | a :: as, b :: bs =>
    match decEq a b with
    | .isTrue h =>
      match decEqList as bs with
      | .isTrue hs => .isTrue (by rw [h, hs])
      | .isFalse hs => .isFalse (by simp [hs])
    | .isFalse h => .isFalse (by simp [h])

end

instance : DecidableEq Expr := decEq

/-! ## Children and induction -/

/-- The immediate subexpressions, in order. -/
def children : Expr → List Expr
  | constant _ => []
  | symbol _ => []
  | add terms => terms
  | mul factors => factors
  | pow base exponent => [base, exponent]
  | function _ arguments => arguments

/-- The same node over other children. A power keeps its own unless it is given two. -/
def withChildren : Expr → List Expr → Expr
  | constant value, _ => constant value
  | symbol name, _ => symbol name
  | add _, terms => add terms
  | mul _, factors => mul factors
  | pow _ _, [base, exponent] => pow base exponent
  | pow base exponent, _ => pow base exponent
  | function head _, arguments => function head arguments

@[simp] theorem withChildren_children (e : Expr) : e.withChildren e.children = e := by
  cases e <;> rfl

theorem children_withChildren {e : Expr} {es : List Expr} (h : es.length = e.children.length) :
    (e.withChildren es).children = es := by
  cases e with
  | constant | symbol => exact (List.length_eq_zero_iff.mp h).symm
  | pow base exponent =>
    match es, h with
    | [_, _], _ => rfl
  | _ => rfl

/-- Constants and symbols have no children. -/
def isLeaf : Expr → Bool
  | constant _ => true
  | symbol _ => true
  | _ => false

theorem sizeOf_lt_of_mem_children {c e : Expr} (h : c ∈ e.children) :
    sizeOf c < sizeOf e := by
  cases e with
  | constant => simp [children] at h
  | symbol => simp [children] at h
  | add terms =>
    have := List.sizeOf_lt_of_mem (show c ∈ terms from h)
    simp only [add.sizeOf_spec]; omega
  | mul factors =>
    have := List.sizeOf_lt_of_mem (show c ∈ factors from h)
    simp only [mul.sizeOf_spec]; omega
  | pow base exponent =>
    simp only [children, List.mem_cons, List.not_mem_nil, or_false] at h
    simp only [pow.sizeOf_spec]
    rcases h with rfl | rfl <;> omega
  | function head arguments =>
    have := List.sizeOf_lt_of_mem (show c ∈ arguments from h)
    simp only [function.sizeOf_spec]; omega

/-- A property holds of every expression when it passes from the children to the node. -/
@[elab_as_elim]
theorem induction {motive : Expr → Prop}
    (node : ∀ e : Expr, (∀ c ∈ e.children, motive c) → motive e) (e : Expr) : motive e :=
  node e fun c h =>
    have := sizeOf_lt_of_mem_children h
    induction node c
termination_by sizeOf e

/-! ## Builders -/

/-- The constant `0`. -/
def zero : Expr := constant 0

/-- The constant `1`. -/
def one : Expr := constant 1

/-- An integer constant. -/
def integer (n : Int) : Expr := constant n

/-- The constant `i`. -/
def imaginaryUnit : Expr := function .imaginaryUnit []

/-- The sum of the terms: `0` without terms, a single term as it is. -/
def sum : List Expr → Expr
  | [] => zero
  | [term] => term
  | terms => add terms

/-- The product of the factors: `1` without factors, a single factor as it is. -/
def product : List Expr → Expr
  | [] => one
  | [factor] => factor
  | factors => mul factors

/-- `-e`, as `(-1)*e`. -/
def neg (e : Expr) : Expr := mul [integer (-1), e]

/-- `1/e`, as `e^(-1)`. -/
def inverse (e : Expr) : Expr := pow e (integer (-1))

/-- `a - b`, as `a + (-1)*b`. -/
def sub (a b : Expr) : Expr := add [a, neg b]

/-- `a/b`, as `a * b^(-1)`. -/
def div (a b : Expr) : Expr := mul [a, inverse b]

/-- A function of one argument. -/
def call (f : Func) (argument : Expr) : Expr := function f [argument]

/-! ## Queries on the node -/

/-- The value of a constant. -/
def constant? : Expr → Option Rat
  | constant value => some value
  | _ => none

/-- The name of a symbol. -/
def symbol? : Expr → Option String
  | symbol name => some name
  | _ => none

/-- The expression is the literal constant `0`. -/
def isZero : Expr → Bool
  | constant value => value == 0
  | _ => false

/-- The expression is the literal constant `1`. -/
def isOne : Expr → Bool
  | constant value => value == 1
  | _ => false

/-- The expression is a sum. -/
def isAdd : Expr → Bool
  | add _ => true
  | _ => false

/-- The terms of a sum; any other expression is its own single term. -/
def terms : Expr → List Expr
  | add terms => terms
  | e => [e]

end Expr

end ClosedForm
