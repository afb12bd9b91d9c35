import ClosedForm.Canonical.Form
import Mathlib.Algebra.Field.Basic
import Mathlib.Algebra.CharZero.Defs
import Mathlib.Algebra.Order.Field.Rat
import Mathlib.Data.Option.NAry
import Mathlib.Data.Rat.Cast.CharZero
import Mathlib.Tactic.FieldSimp
import Mathlib.Tactic.LinearCombination
import Mathlib.Tactic.NormNum
import Mathlib.Tactic.Ring

/-!
# Values of expressions

An `Interpretation` gives the functions and the power a meaning in a field of characteristic
zero. The meanings are partial, and the laws ask for something only where the left-hand side
has a value; for integer exponents the power is the ordinary one.

`Interpretation.value` is the value of an expression at an assignment of its symbols. It is
strict: an expression has a value only if all its subexpressions have one
(`value_of_mem_children`).
-/

namespace ClosedForm

/-- A meaning of the functions and of the power, undefined where they give `none`. -/
structure Interpretation (K : Type*) [Field K] [CharZero K] where
  /-- The imaginary unit. -/
  i : K
  sin : K → Option K
  cos : K → Option K
  tan : K → Option K
  exp : K → Option K
  ln : K → Option K
  pow : K → K → Option K
  i_sq : i ^ 2 = -1
  sin_zero : ∀ x, sin 0 = some x → x = 0
  cos_zero : ∀ x, cos 0 = some x → x = 1
  tan_zero : ∀ x, tan 0 = some x → x = 0
  exp_zero : ∀ x, exp 0 = some x → x = 1
  ln_one : ∀ x, ln 1 = some x → x = 0
  sin_neg : ∀ u x, sin (-u) = some x → sin u = some (-x)
  cos_neg : ∀ u x, cos (-u) = some x → cos u = some x
  tan_neg : ∀ u x, tan (-u) = some x → tan u = some (-x)
  exp_ln : ∀ u x y, ln u = some x → exp x = some y → y = u
  ln_exp : ∀ u x y, exp u = some x → ln x = some y → y = u
  /-- Integer powers are the ordinary ones, with `0 ^ 0 = 1`. -/
  pow_int : ∀ (b : K) (n : ℤ), b ≠ 0 ∨ 0 ≤ n → pow b n = some (b ^ n)
  zero_pow_neg : ∀ n : ℤ, n < 0 → pow 0 n = none
  one_pow : ∀ u x, pow 1 u = some x → x = 1
  pow_add : ∀ b u v x y, pow b u = some x → pow b v = some y → pow b (u + v) = some (x * y)
  pow_pow : ∀ (b u : K) (n : ℤ) (x y : K), pow b u = some x → pow x n = some y →
    pow b (u * n) = some y
  /-- Where the root is exact, `b ^ (p/q)` is its `p`-th power. -/
  pow_root : ∀ (b q r : ℚ) (x : K), Rational.root? b q.den = some r →
    pow (b : K) (q : K) = some x → pow (r : K) (q.num : K) = some x
  /-- Square factors leave a square root. -/
  sqrt_mul : ∀ (m d : ℚ) (x : K), 0 < m → 0 < d →
    pow ((m ^ 2 * d : ℚ) : K) ((1 / 2 : ℚ) : K) = some x →
    ∃ y, pow (d : K) ((1 / 2 : ℚ) : K) = some y ∧ x = m * y

namespace Interpretation

variable {K : Type*} [Field K] [CharZero K] (M : Interpretation K) (σ : String → K)

/-- The value of a function at a number. -/
def apply (f : Func) (x : K) : Option K :=
  match f with
  | .sin => M.sin x
  | .cos => M.cos x
  | .tan => M.tan x
  | .exp => M.exp x
  | .ln => M.ln x
  | .imaginaryUnit => none

mutual

/-- The value of an expression where the symbols have the values `σ`. -/
def value : Expr → Option K
  | .constant c => some c
  | .symbol name => some (σ name)
  | .add terms => sumValue terms
  | .mul factors => productValue factors
  | .pow base exponent => (value base).bind fun b => (value exponent).bind (M.pow b)
  | .function .imaginaryUnit [] => some M.i
  | .function f [argument] => (value argument).bind (M.apply f)
  | .function _ _ => none

/-- The sum of the values. -/
def sumValue : List Expr → Option K
  | [] => some 0
  | e :: es => Option.map₂ (· + ·) (value e) (sumValue es)

/-- The product of the values. -/
def productValue : List Expr → Option K
  | [] => some 1
  | e :: es => Option.map₂ (· * ·) (value e) (productValue es)

end

variable {M σ}

theorem value_add (terms : List Expr) : M.value σ (.add terms) = M.sumValue σ terms := by
  rw [value]

theorem value_mul (factors : List Expr) :
    M.value σ (.mul factors) = M.productValue σ factors := by
  rw [value]

theorem value_pow_eq_some {base exponent : Expr} {x : K} :
    M.value σ (.pow base exponent) = some x ↔
      ∃ b u, M.value σ base = some b ∧ M.value σ exponent = some u ∧ M.pow b u = some x := by
  simp [value, Option.bind_eq_some_iff]

theorem value_function (f : Func) (argument : Expr) :
    M.value σ (.function f [argument]) = (M.value σ argument).bind (M.apply f) := by
  cases f <;> rfl

theorem value_constant (c : Rat) : M.value σ (.constant c) = some (c : K) := by
  rw [value]

theorem value_zero : M.value σ .zero = some 0 := by
  simp [Expr.zero, value]

theorem value_one : M.value σ .one = some 1 := by
  simp [Expr.one, value]

theorem sumValue_cons_eq_some {e : Expr} {es : List Expr} {x : K} :
    M.sumValue σ (e :: es) = some x ↔
      ∃ y z, M.value σ e = some y ∧ M.sumValue σ es = some z ∧ y + z = x := by
  simp [sumValue, Option.map₂_eq_some_iff]

theorem productValue_cons_eq_some {e : Expr} {es : List Expr} {x : K} :
    M.productValue σ (e :: es) = some x ↔
      ∃ y z, M.value σ e = some y ∧ M.productValue σ es = some z ∧ y * z = x := by
  simp [productValue, Option.map₂_eq_some_iff]

theorem sumValue_eq_foldr (es : List Expr) :
    M.sumValue σ es = es.foldr (fun e s => Option.map₂ (· + ·) (M.value σ e) s) (some 0) := by
  induction es with
  | nil => rw [sumValue, List.foldr_nil]
  | cons e es ih => rw [sumValue, List.foldr_cons, ih]

theorem productValue_eq_foldr (es : List Expr) :
    M.productValue σ es =
      es.foldr (fun e s => Option.map₂ (· * ·) (M.value σ e) s) (some 1) := by
  induction es with
  | nil => rw [productValue, List.foldr_nil]
  | cons e es ih => rw [productValue, List.foldr_cons, ih]

/-- The order of the terms does not matter. -/
theorem sumValue_perm {es fs : List Expr} (h : es.Perm fs) :
    M.sumValue σ es = M.sumValue σ fs := by
  rw [sumValue_eq_foldr, sumValue_eq_foldr]
  refine h.foldr_eq' (fun a _ b _ s => ?_) _
  exact Option.map₂_left_comm add_left_comm

/-- The order of the factors does not matter. -/
theorem productValue_perm {es fs : List Expr} (h : es.Perm fs) :
    M.productValue σ es = M.productValue σ fs := by
  rw [productValue_eq_foldr, productValue_eq_foldr]
  refine h.foldr_eq' (fun a _ b _ s => ?_) _
  exact Option.map₂_left_comm mul_left_comm

theorem productValue_append_eq_some {es fs : List Expr} {x : K} :
    M.productValue σ (es ++ fs) = some x ↔
      ∃ y z, M.productValue σ es = some y ∧ M.productValue σ fs = some z ∧ y * z = x := by
  induction es generalizing x with
  | nil => simp [productValue]
  | cons e es ih =>
    simp only [List.cons_append, productValue_cons_eq_some, ih]
    constructor
    · rintro ⟨y, _, hy, ⟨z, w, hz, hw, rfl⟩, rfl⟩
      exact ⟨y * z, w, ⟨y, z, hy, hz, rfl⟩, hw, mul_assoc y z w⟩
    · rintro ⟨_, w, ⟨y, z, hy, hz, rfl⟩, hw, rfl⟩
      exact ⟨y, z * w, hy, ⟨z, w, hz, hw, rfl⟩, (mul_assoc y z w).symm⟩

/-- The builder of sums makes an expression of the sum of the values. -/
theorem value_sum (es : List Expr) : M.value σ (.sum es) = M.sumValue σ es := by
  match es with
  | [] => rw [Expr.sum, value_zero, sumValue]
  | [e] => cases h : M.value σ e <;> simp [Expr.sum, sumValue, h]
  | _ :: _ :: _ => exact value_add _

/-- The builder of products makes an expression of the product of the values. -/
theorem value_product (es : List Expr) : M.value σ (.product es) = M.productValue σ es := by
  match es with
  | [] => rw [Expr.product, value_one, productValue]
  | [e] => cases h : M.value σ e <;> simp [Expr.product, productValue, h]
  | _ :: _ :: _ => exact value_mul _

theorem value_neg {e : Expr} {x : K} (h : M.value σ e = some x) : M.value σ e.neg = some (-x) := by
  simp [Expr.neg, Expr.integer, value, productValue, h]

theorem value_div {d e : Expr} {x y : K} (hd : M.value σ d = some x) (he : M.value σ e = some y)
    (hy : y ≠ 0) : M.value σ (.div d e) = some (x / y) := by
  have hinverse : M.pow y (-1) = some y⁻¹ := by simpa using M.pow_int y (-1) (.inl hy)
  simp [Expr.div, Expr.inverse, Expr.integer, value, productValue, hd, he, hinverse, div_eq_mul_inv]

/-! ## Strictness -/

theorem value_of_mem_sumValue {es : List Expr} {x : K} (h : M.sumValue σ es = some x) {e : Expr}
    (he : e ∈ es) : ∃ y, M.value σ e = some y := by
  induction es generalizing x with
  | nil => simp at he
  | cons a es ih =>
    obtain ⟨y, z, hy, hz, -⟩ := sumValue_cons_eq_some.mp h
    rcases List.mem_cons.mp he with rfl | he
    · exact ⟨y, hy⟩
    · exact ih hz he

theorem value_of_mem_productValue {es : List Expr} {x : K} (h : M.productValue σ es = some x)
    {e : Expr} (he : e ∈ es) : ∃ y, M.value σ e = some y := by
  induction es generalizing x with
  | nil => simp at he
  | cons a es ih =>
    obtain ⟨y, z, hy, hz, -⟩ := productValue_cons_eq_some.mp h
    rcases List.mem_cons.mp he with rfl | he
    · exact ⟨y, hy⟩
    · exact ih hz he

/-- The children of an expression with a value have values. -/
theorem value_of_mem_children {e c : Expr} {x : K} (h : M.value σ e = some x)
    (hc : c ∈ e.children) : ∃ y, M.value σ c = some y := by
  cases e with
  | constant | symbol => simp [Expr.children] at hc
  | add terms =>
    rw [value_add] at h
    exact value_of_mem_sumValue h hc
  | mul factors =>
    rw [value_mul] at h
    exact value_of_mem_productValue h hc
  | pow base exponent =>
    obtain ⟨b, u, hb, hu, -⟩ := value_pow_eq_some.mp h
    simp only [Expr.children, List.mem_cons, List.not_mem_nil, or_false] at hc
    rcases hc with rfl | rfl
    · exact ⟨b, hb⟩
    · exact ⟨u, hu⟩
  | function f arguments =>
    cases arguments with
    | nil => simp [Expr.children] at hc
    | cons argument rest =>
      cases rest with
      | nil =>
        simp only [Expr.children, List.mem_singleton] at hc
        subst hc
        cases hv : M.value σ c with
        | none => cases f <;> simp [value, hv] at h
        | some y => exact ⟨y, rfl⟩
      | cons => cases f <;> simp [value] at h

end Interpretation

end ClosedForm
