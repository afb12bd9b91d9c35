import ClosedForm.Proofs.Arithmetic
import ClosedForm.Proofs.Calculus.Differentiation
import ClosedForm.Proofs.Value.Multivariate

/-!
# Polynomials in one symbol

An expression made of rational constants and one symbol by sums, products and natural powers
(`Expr.PolynomialIn`) denotes a polynomial in one variable (`Expr.univariate`). Canonical forms of such
expressions are again such expressions and denote the same polynomial
(`Expr.PolynomialIn.canonicalize`), so do their derivatives, which denote the derivative
(`Expr.PolynomialIn.differentiate`), and a constant put for the symbol gives the value there
(`Expr.PolynomialIn.substitute`).
-/

open Polynomial (X C aeval)
open scoped Polynomial

namespace ClosedForm

open ClosedForm.Expr Canonical

variable {bounds : Bounds} {name : String}

/-! ## Expressions in one symbol -/

/-- Made of rational constants and the symbol by sums, products and natural powers. -/
def Expr.PolynomialIn (name : String) (e : Expr) : Prop :=
  e.IsPolynomial ∧ Over (· = name) e

/-- The polynomial that an expression in one symbol denotes. -/
noncomputable def Expr.univariate (e : Expr) : ℚ[X] :=
  MvPolynomial.aeval (fun _ => X) e.polynomial

/-- The value depends on the symbols that occur only. -/
theorem Functions.eval_congr {A : Type*} [CommRing A] [Algebra ℚ A] {F : Functions A}
    {σ τ : String → A} {e : Expr} (h : Over (fun name => σ name = τ name) e) :
    F.eval σ e = F.eval τ e := by
  induction e using Expr.induction with
  | node e ih =>
    have hchildren : e.children.map (F.eval σ) = e.children.map (F.eval τ) :=
      List.map_congr_left fun c hc => ih c hc (over_of_mem_children h hc)
    rw [eval_eq, eval_eq, hchildren]
    cases e with
    | symbol other => exact congrArg some (over_symbol.mp h)
    | function f arguments =>
      generalize (Expr.function f arguments).children.map (F.eval τ) = values
      cases f <;> match values with
        | [] | [_] | _ :: _ :: _ => rfl
    | _ => rfl

namespace Expr.PolynomialIn

variable {e : Expr}

/-- The value in a ring is that of the polynomial at the value of the symbol. -/
theorem eval_eq {A : Type*} [CommRing A] [Algebra ℚ A] {F : Functions A} {σ : String → A}
    (h : e.PolynomialIn name) : F.eval σ e = some (aeval (σ name) e.univariate) := by
  have hcongr : F.eval σ e = F.eval (fun _ => σ name) e :=
    Functions.eval_congr fun other hother => by rw [h.2 other hother]
  rw [hcongr, h.1.eval_eq, univariate]
  have hcomp : (aeval (σ name)).comp (MvPolynomial.aeval fun _ : String => (X : ℚ[X])) =
      MvPolynomial.aeval fun _ => σ name := by
    ext
    simp
  rw [← hcomp]
  rfl

theorem value_eq {K : Type*} [Field K] [CharZero K] {M : Interpretation K} {σ : String → K}
    (h : e.PolynomialIn name) : M.value σ e = some (aeval (σ name) e.univariate) :=
  Interpretation.value_of_eval h.eval_eq

theorem constant (c : ℚ) : (Expr.constant c).PolynomialIn name :=
  ⟨.constant c, over_constant c⟩

theorem symbol (name : String) : (Expr.symbol name).PolynomialIn name :=
  ⟨.symbol name, over_symbol.mpr rfl⟩

end Expr.PolynomialIn

@[simp] theorem Expr.univariate_constant (c : ℚ) : (constant c).univariate = C c := by
  simp [univariate]

@[simp] theorem Expr.univariate_symbol (name : String) : (symbol name).univariate = X := by
  simp [univariate]

@[simp] theorem Expr.univariate_add (ts : List Expr) :
    (add ts).univariate = (ts.map univariate).sum := by
  rw [univariate, polynomial_add, map_list_sum, List.map_map]
  rfl

@[simp] theorem Expr.univariate_mul (fs : List Expr) :
    (mul fs).univariate = (fs.map univariate).prod := by
  rw [univariate, polynomial_mul, map_list_prod, List.map_map]
  rfl

theorem Expr.univariate_sum (ts : List Expr) : (sum ts).univariate = (ts.map univariate).sum := by
  rw [univariate, polynomial_sum, map_list_sum, List.map_map]
  rfl

@[simp] theorem Expr.univariate_pow (base : Expr) (n : ℕ) :
    (pow base (constant n)).univariate = base.univariate ^ n := by
  simp [univariate]

/-! ## Exponents -/

/-- An exponent that stands for a natural number. -/
def Expr.IsNaturalExponent (e : Expr) : Prop :=
  ∃ n : ℕ, e.integerExponent? = some (n : ℤ)

theorem Expr.IsNatural.isNaturalExponent {e : Expr} (h : e.IsNatural) : e.IsNaturalExponent := by
  obtain ⟨n, rfl⟩ := h
  exact ⟨n, by exact_mod_cast integerExponent?_constant n⟩

/-- Exponents that stand for integers have no symbols. -/
theorem Expr.over_of_integerExponent? {p : String → Prop} {e : Expr} {n : ℤ}
    (h : e.integerExponent? = some n) : Over p e := by
  rcases integerExponent?_eq_some.mp h with rfl | ⟨ts, ns, rfl, hts, -⟩
  · exact over_constant _
  · refine over_add.mpr fun t ht => ?_
    obtain ⟨k, -, rfl⟩ := exists_of_forall₂_right hts.flip ht
    exact over_constant _

/-- Like `Expr.PolynomialIn`, but with exponents that stand for natural numbers. -/
def Expr.LoosePolynomialIn (name : String) (e : Expr) : Prop :=
  e.Algebraic IsNaturalExponent ∧ Over (· = name) e

theorem polynomialIn_hereditary : Hereditary (fun _ => False) (PolynomialIn name) IsNatural :=
  isPolynomial_hereditary.over fun _ ⟨n, h⟩ => h ▸ over_constant n

theorem loosePolynomialIn_hereditary :
    Hereditary (fun _ => False) (LoosePolynomialIn name) IsNaturalExponent :=
  algebraic_hereditary.over fun _ ⟨_, h⟩ => over_of_integerExponent? h

theorem polynomialIn_closed : Closed (fun _ => False) (PolynomialIn name) IsNatural where
  toHereditary := polynomialIn_hereditary
  one := ⟨1, by simp [Expr.one]⟩
  sum es hes := by
    obtain ⟨ns, hns⟩ := exists_forall₂ hes
    have hconstants : es.map id = ns.map (.constant ∘ Nat.cast) := map_eq_of_forall₂ hns
    rw [← List.map_id es, hconstants, ← List.map_map, add_all_constants]
    exact ⟨ns.sum, by rw [Nat.cast_list_sum]⟩
  fraction q p hq hnatural := by
    obtain ⟨n, hn⟩ := hnatural
    cases hn
    simp [Rational.isInteger] at hq
  multiple hP e r n hn hr he hnatural := by
    obtain ⟨m, rfl⟩ := he
    obtain ⟨k, hk⟩ := hnatural
    cases hk
    cases multiplyWith_constants _ [(m : Rat), (k : Rat)] ▸ hr
    exact ⟨m * k, by simp⟩

theorem polynomialIn_refines (bounds : Bounds) : Refines bounds (fun _ => False) (PolynomialIn name) IsNatural
    (LoosePolynomialIn name) IsNaturalExponent where
  closed := polynomialIn_closed
  hereditary := loosePolynomialIn_hereditary
  symbol other := ⟨fun h => ⟨.symbol other, h.2⟩, fun h => ⟨.symbol other, h.2⟩⟩
  exponent _ := IsNatural.isNaturalExponent
  reduces _ h := by
    obtain ⟨n, hn⟩ := h
    exact ⟨_, reduces_of_integerExponent? hn, n, by simp⟩

theorem Expr.PolynomialIn.loose {e : Expr} (h : e.PolynomialIn name) : e.LoosePolynomialIn name :=
  (polynomialIn_refines {}).weaken h

/-! ## Derivatives -/

/-- The terms of the product rule are products of factors and derivatives. -/
theorem Canonical.Hereditary.productTerms {H : Func → Prop} {R E : Expr → Prop}
    (h : Hereditary H R E) {before : List Expr} {rest : List (Expr × Expr)}
    (hbefore : ∀ f ∈ before, R f) (hrest : ∀ p ∈ rest, R p.1 ∧ R p.2) :
    ∀ t ∈ Derivative.productTerms before rest, R t := by
  induction rest generalizing before with
  | nil => simp [Derivative.productTerms]
  | cons p rest ih =>
    obtain ⟨f, d⟩ := p
    obtain ⟨⟨hf, hd⟩, hrest⟩ := List.forall_mem_cons.mp hrest
    have hpassed : ∀ g ∈ before ++ [f], R g := by
      simp only [List.mem_append, List.mem_singleton]
      rintro g (hg | rfl)
      · exact hbefore g hg
      · exact hf
    have hothers := ih hpassed hrest
    rw [Derivative.productTerms]
    split
    · exact hothers
    · refine List.forall_mem_cons.mpr ⟨h.product ?_, hothers⟩
      simp only [List.cons_append, List.mem_cons, List.mem_append, List.mem_map]
      rintro g (rfl | hg | ⟨q, hq, rfl⟩)
      · exact hd
      · exact hbefore g hg
      · exact (hrest q hq).1

namespace Expr.PolynomialIn

variable {memo later : Memo} {e c d : Expr}

/-- The power rule lowers an exponent, which is not `0` in a normal expression. -/
theorem powerRule {base dBase : Expr} {n : ℕ} (hn : n ≠ 0) (hbase : base.PolynomialIn name)
    (hderivative : dBase.LoosePolynomialIn name) (dExponent : Expr) :
    (Derivative.powerRule name base (.constant n) dBase dExponent).LoosePolynomialIn name := by
  have hloose : Hereditary (fun _ => False) (LoosePolynomialIn name) IsNaturalExponent :=
    loosePolynomialIn_hereditary
  unfold Derivative.powerRule
  rw [if_neg (by simp [contains, recurse])]
  split
  · exact hloose.constant 0
  · have hlower : (Expr.add [.constant n, .integer (-1)]).IsNaturalExponent := by
      refine ⟨n - 1, integerExponent?_eq_some.mpr (.inr ⟨_, [n, -1], rfl, ?_, ?_⟩)⟩
      · exact .cons (by simp) (.cons rfl .nil)
      · simp
        omega
    refine (hloose.mul _).mpr ?_
    simp only [List.forall_mem_cons]
    exact ⟨hloose.constant n,
      (hloose.pow _ _).mpr ⟨hbase.loose, hlower⟩, hderivative, by simp⟩

/-- The derivative is made of factors and derivatives of factors. -/
theorem ofCanonical (he : e.PolynomialIn name) (hnormal : Normal bounds e)
    (hd : Derivative.ofCanonical name e = .ok d) : d.LoosePolynomialIn name := by
  have hloose : Hereditary (fun _ => False) (LoosePolynomialIn name) IsNaturalExponent :=
    loosePolynomialIn_hereditary
  induction e using Expr.induction generalizing d with
  | node e ih =>
    rw [Derivative.ofCanonical_eq] at hd
    obtain ⟨ds, hds, hd⟩ := bind_eq_ok.mp hd
    have hall := mapM_eq_ok.mp hds
    have hparts {es : List Expr} (hes : ∀ c ∈ es, c ∈ e.children ∧ c.PolynomialIn name)
        (hds : List.Forall₂ (fun c d => Derivative.ofCanonical name c = .ok d) es ds) :
        ∀ p ∈ es.zip ds, p.1.LoosePolynomialIn name ∧ p.2.LoosePolynomialIn name := by
      intro p hp
      have hc := hes p.1 (List.of_mem_zip hp).1
      exact ⟨hc.2.loose,
        ih p.1 hc.1 hc.2 (hnormal.of_mem_children hc.1) ((List.forall₂_iff_zip.mp hds).2 hp)⟩
    cases e with
    | constant c =>
      cases hd
      exact hloose.constant 0
    | symbol other =>
      cases hd
      split
      · exact hloose.constant 1
      · exact hloose.constant 0
    | add ts =>
      cases hd
      refine hloose.sum fun d hd => ?_
      obtain ⟨t, ht, hd⟩ := exists_of_forall₂_right hall hd
      exact ih t ht ((polynomialIn_hereditary.add _).mp he t ht) (hnormal.of_mem_children ht) hd
    | mul fs =>
      cases hd
      have hfs := (polynomialIn_hereditary.mul _).mp he
      exact hloose.sum (hloose.productTerms (by simp) (hparts (fun c hc => ⟨hc, hfs c hc⟩) hall))
    | pow base exponent =>
      obtain ⟨hbase, n, rfl⟩ := (polynomialIn_hereditary.pow _ _).mp he
      have hn : n ≠ 0 := by
        rintro rfl
        exact hnormal.exponent_ne_zero (by simp [Expr.zero])
      obtain - | @⟨_, dBase, _, _, hdBase, - | @⟨_, dExponent, _, _, -, - | -⟩⟩ := hall
      cases hd
      exact powerRule hn hbase
        (ih base (by simp [children]) hbase (hnormal.of_mem_children (by simp [children])) hdBase) _
    | function f arguments => exact ((polynomialIn_hereditary.function _ _).mp he).1.elim

/-- Polynomials with the same values at all rational numbers are the same. -/
theorem univariate_eq_of_values {K : Type*} [Field K] [CharZero K] {p q : ℚ[X]}
    (h : ∀ r : ℚ, aeval (r : K) p = aeval (r : K) q) : p = q := by
  refine Polynomial.funext fun r => ?_
  have hr := h r
  rw [← eq_ratCast (algebraMap ℚ K) r, Polynomial.aeval_algebraMap_apply,
    Polynomial.aeval_algebraMap_apply] at hr
  exact (algebraMap ℚ K).injective hr

/-- The canonical form denotes the same polynomial. -/
theorem canonicalize (hmemo : memo.Reachable bounds)
    (hrun : (ClosedForm.canonicalize bounds e).run.run memo = (.ok c, later))
    (he : e.PolynomialIn name) : c.PolynomialIn name ∧ c.univariate = e.univariate := by
  have hc : c.PolynomialIn name :=
    (polynomialIn_refines bounds).run hmemo hrun he.loose
  refine ⟨hc, univariate_eq_of_values (K := ℂ) fun r => ?_⟩
  have hkept := hmemo.keepsValue_run (M := Interpretation.complex) (σ := fun _ => (r : ℂ))
    (congrArg Prod.fst hrun) _ he.value_eq
  rw [hc.value_eq] at hkept
  exact Option.some.inj hkept

/-- The derivative denotes the derivative. -/
theorem differentiate (hmemo : memo.Reachable bounds)
    (hrun : (ClosedForm.differentiate bounds e name).run.run memo = (.ok d, later))
    (he : e.PolynomialIn name) :
    d.PolynomialIn name ∧ d.univariate = Polynomial.derivative e.univariate := by
  have hd : d.PolynomialIn name := by
    obtain ⟨c, middle, raw, hc, hraw, hrun⟩ := Derivative.run_differentiate.mp hrun
    have hmiddle := (Recording.canonicalize e).reachable hmemo hc
    exact (polynomialIn_refines bounds).run hmiddle hrun
      ((he.canonicalize hmemo hc).1.ofCanonical (normal_of_canonicalize hmemo hc) hraw)
  refine ⟨hd, univariate_eq_of_values (K := ℝ) fun r => ?_⟩
  obtain ⟨z, hz, -, hvalue⟩ := Analysis.differentiate_run (A := Analysis.real)
    (σ := fun _ => (r : ℝ)) hmemo hrun he.eval_eq
  rw [he.eval_eq] at hz
  rw [hd.eval_eq] at hvalue
  rw [Option.some.inj hvalue, ← Option.some.inj hz]
  -- The dual number of a polynomial is its value and that of its derivative.
  have hnearby : Analysis.nearby (fun _ => (r : ℝ)) name name =
      TrivSqZeroExt.inlAlgHom ℚ ℝ ℝ r + DualNumber.eps := by
    simp [Analysis.nearby]
  rw [hnearby, Polynomial.aeval_add_of_sq_eq_zero _ _ _ (by rw [sq, DualNumber.eps_mul_eps]),
    Polynomial.aeval_algHom_apply, Polynomial.aeval_algHom_apply]
  simp

/-! ## Values -/

/-- A constant in the place of the symbol gives the value there. -/
theorem substitute {p : ℚ} (hmemo : memo.Reachable bounds)
    (hrun : (ClosedForm.substitute bounds e name (.constant p)).run.run memo = (.ok d, later))
    (he : e.PolynomialIn name) :
    d.PolynomialIn name ∧ d.univariate = C (e.univariate.eval p) := by
  have hbound : Over (fun other => boundTo [(name, .constant p)] other = .constant p) e := by
    intro other hother
    rw [he.2 other hother]
    simp [boundTo]
  have hreplaced : (e.replaceSymbols [(name, .constant p)]).PolynomialIn name := by
    refine polynomialIn_hereditary.replaceSymbols ?_ he fun other hother => ?_
    · rintro _ ⟨n, rfl⟩
      rw [replaceSymbols_node (by simp)]
      rfl
    · show (boundTo _ other).PolynomialIn name
      rw [hbound other hother]
      exact constant p
  obtain ⟨hd, hunivariate⟩ := hreplaced.canonicalize hmemo hrun
  refine ⟨hd, hunivariate.trans (univariate_eq_of_values (K := ℂ) fun r => ?_)⟩
  have hvalue : Interpretation.complex.value (fun _ => (r : ℂ))
      (e.replaceSymbols [(name, .constant p)]) = Interpretation.complex.value (fun _ => (p : ℂ)) e := by
    refine Interpretation.value_replaceSymbols fun other hother => ?_
    show Interpretation.complex.value _ (boundTo _ other) = _
    rw [hbound other hother, Interpretation.value_constant]
  rw [he.value_eq, hreplaced.value_eq, Option.some.injEq] at hvalue
  rw [hvalue, Polynomial.aeval_C, ← eq_ratCast (algebraMap ℚ ℂ) p,
    Polynomial.aeval_algebraMap_apply, Polynomial.coe_aeval_eq_eval]

end Expr.PolynomialIn

end ClosedForm
