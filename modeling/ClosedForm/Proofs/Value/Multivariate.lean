import ClosedForm.Proofs.Calculus.Evaluation
import ClosedForm.Proofs.Closure
import ClosedForm.Proofs.Value.Complex
import Mathlib.Algebra.MvPolynomial.Funext
import Mathlib.RingTheory.MvPolynomial.Tower

/-!
# Polynomial expressions

Expressions that are made of constants and symbols by sums, products and natural powers stand for
polynomials over the rational numbers in their symbols (`Expr.polynomial`). Their value at an assignment is
that of the polynomial (`Expr.IsPolynomial.eval_eq`, `Expr.IsPolynomial.value_eq`), so two of them with the same values stand for the
same polynomial (`Expr.IsPolynomial.polynomial_eq`).
-/

namespace ClosedForm

open ClosedForm.Expr MvPolynomial

variable {K : Type*} [Field K] [CharZero K] {M : Interpretation K}

namespace Expr

/-- The expressions made of rational constants and symbols by sums, products and natural powers. -/
inductive IsPolynomial : Expr → Prop
  | constant (c : Rat) : IsPolynomial (.constant c)
  | symbol (name : String) : IsPolynomial (.symbol name)
  | add {ts : List Expr} (h : ∀ t ∈ ts, IsPolynomial t) : IsPolynomial (.add ts)
  | mul {fs : List Expr} (h : ∀ f ∈ fs, IsPolynomial f) : IsPolynomial (.mul fs)
  | pow {base : Expr} (n : Nat) (h : IsPolynomial base) : IsPolynomial (.pow base (.constant n))

/-- The polynomial of a node from those of its children. -/
noncomputable def polynomialStep (e : Expr) (children : List (MvPolynomial String ℚ)) :
    MvPolynomial String ℚ :=
  match e, children with
  | .constant c, _ => C c
  | .symbol name, _ => X name
  | .add _, terms => terms.sum
  | .mul _, factors => factors.prod
  | .pow _ (.constant n), base :: _ => base ^ n.num.toNat
  | _, _ => 0

/-- The polynomial that a polynomial expression denotes in its symbols. -/
noncomputable def polynomial : Expr → MvPolynomial String ℚ :=
  recurse polynomialStep

theorem polynomial_eq (e : Expr) : e.polynomial = polynomialStep e (e.children.map polynomial) :=
  recurse_eq _ _

@[simp] theorem polynomial_constant (c : Rat) : (constant c).polynomial = C c := rfl

@[simp] theorem polynomial_zero : zero.polynomial = 0 := C_0

@[simp] theorem polynomial_symbol (name : String) : (symbol name).polynomial = X name := rfl

@[simp] theorem polynomial_add (ts : List Expr) : (add ts).polynomial = (ts.map polynomial).sum :=
  polynomial_eq _

@[simp] theorem polynomial_mul (fs : List Expr) : (mul fs).polynomial = (fs.map polynomial).prod :=
  polynomial_eq _

@[simp] theorem polynomial_pow (base : Expr) (n : Nat) :
    (pow base (constant n)).polynomial = base.polynomial ^ n := by
  rw [polynomial_eq]
  simp [polynomialStep, children]

theorem polynomial_sum (ts : List Expr) : (sum ts).polynomial = (ts.map polynomial).sum := by
  match ts with
  | [] => exact C_0
  | [t] => simp [sum]
  | _ :: _ :: _ => exact polynomial_add _

theorem polynomial_product (fs : List Expr) : (product fs).polynomial = (fs.map polynomial).prod := by
  match fs with
  | [] => exact C_1
  | [f] => simp [product]
  | _ :: _ :: _ => exact polynomial_mul _

/-- A natural number as an exponent. -/
def IsNatural (e : Expr) : Prop :=
  ∃ n : Nat, e = .constant n

theorem isPolynomial_hereditary : Canonical.Hereditary (fun _ => False) IsPolynomial IsNatural where
  constant := .constant
  add _ := ⟨fun h => by cases h; assumption, .add⟩
  mul _ := ⟨fun h => by cases h; assumption, .mul⟩
  pow _ _ := by
    constructor
    · rintro (_ | _ | _ | _ | ⟨n, hbase⟩)
      exact ⟨hbase, n, rfl⟩
    · rintro ⟨hbase, n, rfl⟩
      exact .pow n hbase
  function _ _ := ⟨fun h => (nomatch h), fun h => h.1.elim⟩

namespace IsPolynomial

/-- The value of a polynomial expression in a ring is that of its polynomial. -/
theorem eval_eq {A : Type*} [CommRing A] [Algebra ℚ A] {F : Functions A} {σ : String → A} {e : Expr}
    (h : e.IsPolynomial) : F.eval σ e = some (aeval σ e.polynomial) := by
  induction h with
  | constant c => simp
  | symbol name => simp
  | @add ts _ ih =>
    refine Functions.eval_add_eq_some.mpr ⟨ts.map fun t => aeval σ t.polynomial,
      List.forall₂_map_right_iff.mpr (List.forall₂_same.mpr ih), ?_⟩
    rw [polynomial_add, map_list_sum, List.map_map]
    rfl
  | @mul fs _ ih =>
    refine Functions.eval_mul_eq_some.mpr ⟨fs.map fun f => aeval σ f.polynomial,
      List.forall₂_map_right_iff.mpr (List.forall₂_same.mpr ih), ?_⟩
    rw [polynomial_mul, map_list_prod, List.map_map]
    rfl
  | @pow base n _ ih =>
    refine Functions.eval_pow_eq_some.mpr ⟨_, n, ih, ?_, ?_⟩
    · exact_mod_cast integerExponent?_constant n
    · rw [polynomial_pow, map_pow]
      rfl

/-- The value of a polynomial expression is that of its polynomial. -/
theorem value_eq {e : Expr} (h : e.IsPolynomial) {σ : String → K} :
    M.value σ e = some (aeval σ e.polynomial) :=
  Interpretation.value_of_eval h.eval_eq

/-- Polynomial expressions of which one has the values of the other denote the same polynomial. -/
theorem polynomial_eq {e d : Expr} (he : e.IsPolynomial) (hd : d.IsPolynomial)
    (h : ∀ (σ : String → ℂ) (x : ℂ), Interpretation.complex.value σ e = some x →
      Interpretation.complex.value σ d = some x) : d.polynomial = e.polynomial := by
  -- The values at rational points determine a polynomial.
  refine MvPolynomial.funext fun q => ?_
  have hvalue := h (fun name => (q name : ℂ)) _ he.value_eq
  rw [hd.value_eq, Option.some.injEq] at hvalue
  have hcast (p : MvPolynomial String ℚ) : aeval (fun name => (q name : ℂ)) p = (eval q p : ℂ) :=
    (aeval_algebraMap_apply ℂ q p).trans (by simp [aeval_eq_eval])
  rw [hcast, hcast] at hvalue
  exact_mod_cast hvalue

end IsPolynomial

end Expr

end ClosedForm
