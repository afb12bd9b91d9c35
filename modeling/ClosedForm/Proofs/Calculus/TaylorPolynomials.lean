import ClosedForm.Proofs.Calculus.Polynomials
import Mathlib.Algebra.Polynomial.Taylor
import Mathlib.RingTheory.Polynomial.DegreeLT

/-!
# Taylor polynomials of polynomials

The Taylor polynomial of order `n` of a polynomial about a rational point is its remainder by
`(x - p)^n` (`Session.taylor_polynomial`).

The terms are collected by going through the derivatives, which denote the iterated derivatives of the
polynomial (`Taylor.terms_run`). Their sum is the part of the expansion in powers of `x - p` below the
order, and the rest of that expansion is divisible by `(x - p)^n` (`Taylor.dvd_sub_expansion`).
-/

open Polynomial (X C)
open scoped Polynomial Nat

namespace ClosedForm

open ClosedForm.Expr Canonical

variable {bounds : Bounds} {name : String}

namespace Taylor

/-! ## The expansion about a point -/

/-- The terms of the expansion of a polynomial in powers of `X - p`, below the order. -/
noncomputable def expansion (p : ℚ) (order : ℕ) (f : ℚ[X]) : ℚ[X] :=
  ∑ k ∈ Finset.range order, C ((Polynomial.derivative^[k] f).eval p / k !) * (X - C p) ^ k

theorem coeff_taylor (p : ℚ) (k : ℕ) (f : ℚ[X]) :
    (Polynomial.derivative^[k] f).eval p / k ! = (Polynomial.taylor p f).coeff k := by
  rw [Polynomial.taylor_coeff, ← Polynomial.factorial_smul_hasseDeriv, LinearMap.smul_apply,
    Polynomial.eval_smul, nsmul_eq_mul, mul_div_cancel_left₀]
  exact_mod_cast k.factorial_ne_zero

theorem degree_X_sub_C_pow (p : ℚ) (k : ℕ) : ((X - C p) ^ k).degree = (k : WithBot ℕ) := by
  rw [Polynomial.degree_pow, Polynomial.degree_X_sub_C, nsmul_one]

theorem degree_expansion_lt (p : ℚ) (order : ℕ) (f : ℚ[X]) : (expansion p order f).degree < order := by
  refine Polynomial.mem_degreeLT.mp (Submodule.sum_mem _ fun k hk => Polynomial.mem_degreeLT.mpr ?_)
  rw [← Polynomial.smul_eq_C_mul]
  refine (Polynomial.degree_smul_le _ _).trans_lt ?_
  rw [degree_X_sub_C_pow]
  exact_mod_cast Finset.mem_range.mp hk

/-- The rest of the expansion has the power as a factor. -/
theorem dvd_sub_expansion (p : ℚ) (order : ℕ) (f : ℚ[X]) :
    (X - C p) ^ order ∣ f - expansion p order f := by
  have hwhole := Polynomial.sum_taylor_eq f p
  rw [Polynomial.sum_over_range' _ (by simp) (order + (f.natDegree + 1))
    (by rw [Polynomial.natDegree_taylor]; omega), Finset.sum_range_add] at hwhole
  refine ⟨∑ k ∈ Finset.range (f.natDegree + 1),
    C ((Polynomial.taylor p f).coeff (order + k)) * (X - C p) ^ k, ?_⟩
  rw [expansion, Finset.mul_sum]
  simp only [coeff_taylor]
  nth_rewrite 1 [← hwhole]
  rw [add_sub_cancel_left]
  exact Finset.sum_congr rfl fun k _ => by ring

/-- No other polynomial of a degree below the order agrees with `f` as far. -/
theorem eq_expansion {p : ℚ} {order : ℕ} {f q : ℚ[X]} (hdegree : q.degree < order)
    (hdvd : (X - C p) ^ order ∣ f - q) : q = expansion p order f := by
  have hdifference : (X - C p) ^ order ∣ q - expansion p order f := by
    have := dvd_sub (dvd_sub_expansion p order f) hdvd
    rwa [sub_sub_sub_cancel_left] at this
  refine sub_eq_zero.mp (Polynomial.eq_zero_of_dvd_of_degree_lt hdifference ?_)
  rw [degree_X_sub_C_pow]
  exact (Polynomial.degree_sub_le _ _).trans_lt (max_lt hdegree (degree_expansion_lt p order f))

/-! ## The terms -/

theorem factorial_eq (k : ℕ) : Rational.factorial k = k ! := by
  induction k with
  | zero => rfl
  | succ k ih => rw [Rational.factorial, ih, Nat.factorial_succ]

/-- The terms for the value that the `k`-th derivative has at the point. -/
def termsOf (shift : Expr) (k : ℕ) (value : Expr) : List Expr :=
  if value.isZero then []
  else [.mul [.constant (mkRat 1 (Rational.factorial k)), value, .pow shift (.integer k)]]

/-- A step evaluates the derivative, and takes the next one unless it is the last step. -/
theorem run_terms_succ {point shift derivative : Expr} {k count : ℕ} {ts : List Expr}
    {memo later : Memo} (hrun : (terms bounds name point shift k (count + 1) derivative).run.run memo =
      (.ok ts, later)) :
    ∃ value evaluated next derived rest,
      (substitute bounds derivative name point).run.run memo = (.ok value, evaluated) ∧
      (if count = 0 then pure derivative
        else differentiate bounds derivative name).run.run evaluated = (.ok next, derived) ∧
      (terms bounds name point shift (k + 1) count next).run.run derived = (.ok rest, later) ∧
      termsOf shift k value ++ rest = ts := by
  rw [terms] at hrun
  obtain ⟨value, evaluated, hvalue, hrun⟩ := run_bind_eq_ok.mp hrun
  dsimp only at hrun
  split at hrun <;>
  · obtain ⟨next, derived, hnext, hrun⟩ := run_bind_eq_ok.mp hrun
    obtain ⟨rest, _, hrest, hrun⟩ := run_bind_eq_ok.mp hrun
    cases hrun
    refine ⟨value, evaluated, next, derived, rest, hvalue, ?_, hrest, rfl⟩
    simp_all

theorem termsOf_spec {p : ℚ} {shift value : Expr} {f : ℚ[X]} (k : ℕ)
    (hshift : shift.PolynomialIn name) (hvalue : value.PolynomialIn name)
    (hat : value.univariate = C (f.eval p)) :
    (∀ t ∈ termsOf shift k value, t.PolynomialIn name) ∧
      ((termsOf shift k value).map univariate).sum = C (f.eval p / k !) * shift.univariate ^ k := by
  unfold termsOf
  split
  · next hzero =>
    rw [eq_zero_of_isZero hzero, Expr.zero, univariate_constant, Polynomial.C_inj] at hat
    simp [← hat]
  · have hinteger : Expr.integer (k : ℤ) = .constant (k : ℚ) := by simp [Expr.integer]
    have hpower : (Expr.pow shift (.integer k)).PolynomialIn name :=
      (polynomialIn_hereditary.pow _ _).mpr ⟨hshift, k, hinteger⟩
    constructor
    · simp only [List.mem_singleton, forall_eq]
      refine (polynomialIn_hereditary.mul _).mpr ?_
      simp only [List.forall_mem_cons]
      exact ⟨.constant _, hvalue, hpower, by simp⟩
    · rw [hinteger, factorial_eq, Rat.mkRat_eq_div]
      simp only [List.sum_singleton, univariate_mul, List.map_cons, List.map_nil, List.prod_cons,
        List.prod_nil, univariate_constant, univariate_pow, hat]
      rw [mul_one, ← mul_assoc, ← map_mul]
      congr 2
      push_cast
      ring

/-- The terms from the `k`-th power on are those of the expansion, if `derivative` denotes the `k`-th
derivative. -/
theorem terms_run {p : ℚ} {shift derivative : Expr} {k count : ℕ} {ts : List Expr}
    {memo later : Memo} (hmemo : memo.Reachable bounds)
    (hrun : (terms bounds name (.constant p) shift k count derivative).run.run memo = (.ok ts, later))
    (hshift : shift.PolynomialIn name) (hderivative : derivative.PolynomialIn name) :
    (∀ t ∈ ts, t.PolynomialIn name) ∧ (ts.map univariate).sum =
      ∑ i ∈ Finset.range count,
        C ((Polynomial.derivative^[i] derivative.univariate).eval p / (k + i) !) *
          shift.univariate ^ (k + i) := by
  induction count generalizing k derivative ts memo with
  | zero =>
    cases hrun
    simp
  | succ count ih =>
    obtain ⟨value, evaluated, next, derived, rest, hvalue, hnext, hrest, rfl⟩ := run_terms_succ hrun
    have hevaluated := (Recording.substituteAll derivative _).reachable hmemo hvalue
    obtain ⟨hvalue, hat⟩ := hderivative.substitute hmemo hvalue
    obtain ⟨hterms, hsum⟩ := termsOf_spec k hshift hvalue hat
    rw [List.map_append, List.sum_append, hsum, Finset.sum_range_succ', add_comm]
    -- Behind the last term nothing is left to be summed, and `next` need not be the derivative.
    have hnext : next.PolynomialIn name ∧ (count ≠ 0 →
        next.univariate = Polynomial.derivative derivative.univariate) ∧ derived.Reachable bounds := by
      split at hnext
      · next hlast =>
        cases hnext
        exact ⟨hderivative, fun h => absurd hlast h, hevaluated⟩
      · obtain ⟨hpolynomial, hunivariate⟩ := hderivative.differentiate hevaluated hnext
        exact ⟨hpolynomial, fun _ => hunivariate,
          (Recording.differentiate derivative name).reachable hevaluated hnext⟩
    obtain ⟨hpolynomial, hunivariate, hderived⟩ := hnext
    obtain ⟨hrests, hrestsum⟩ := ih hderived hrest hpolynomial
    refine ⟨fun t ht => (List.mem_append.mp ht).elim (hterms t) (hrests t), ?_⟩
    rw [hrestsum]
    congr 1
    refine Finset.sum_congr rfl fun i hi => ?_
    have hcount : count ≠ 0 := by
      rintro rfl
      simp at hi
    rw [hunivariate hcount, ← Function.iterate_succ_apply, Nat.add_right_comm k 1 i, Nat.add_assoc k i 1]

/-- The Taylor polynomial denotes the expansion below the order. -/
theorem taylor_run {p : ℚ} {e t : Expr} {order : ℕ} {memo later : Memo} (hmemo : memo.Reachable bounds)
    (hrun : (taylor bounds e name (.constant p) order).run.run memo = (.ok t, later))
    (he : e.PolynomialIn name) :
    t.PolynomialIn name ∧ t.univariate = expansion p order e.univariate ∧ (order = 0 → t = .zero) := by
  obtain ⟨c, canonical, hc, hrun⟩ := run_bind_eq_ok.mp hrun
  obtain ⟨ts, collected, hts, hrun⟩ := run_bind_eq_ok.mp hrun
  have hcanonical := (Recording.canonicalize e).reachable hmemo hc
  have hcollected := (Recording.taylorTerms name _ _ 0 order c).reachable hcanonical hts
  have hshift : (Expr.sub (.symbol name) (.constant p)).PolynomialIn name :=
    (polynomialIn_hereditary.add _).mpr (by
      simpa using ⟨.symbol name, polynomialIn_hereditary.neg (.constant p)⟩)
  have hunivariate : (Expr.sub (.symbol name) (.constant p)).univariate = X - C p := by
    simp [Expr.sub, Expr.neg, Expr.integer, sub_eq_add_neg]
  obtain ⟨hcpolynomial, hcunivariate⟩ := he.canonicalize hmemo hc
  obtain ⟨hterms, hsum⟩ := terms_run hcanonical hts hshift hcpolynomial
  obtain ⟨ht, htunivariate⟩ :=
    PolynomialIn.canonicalize hcollected hrun (polynomialIn_hereditary.sum hterms)
  refine ⟨ht, ?_, ?_⟩
  · rw [htunivariate, univariate_sum, hsum, hunivariate, hcunivariate, expansion]
    simp only [zero_add]
  · rintro rfl
    cases hts
    exact hcollected.eq_of_normal (.constant 0) (congrArg Prod.fst hrun)

end Taylor

namespace Session

/-- The Taylor polynomial of order `n` of a polynomial in one symbol about a rational number `p`, in a
reachable session. It denotes the only polynomial of a degree below `n` from which the polynomial
differs by a multiple of `(X - p)^n`. So it denotes the polynomial itself if the degree of that is below
`n`, and it is `0` if `n` is. -/
theorem taylor_polynomial {session later : Session} (hsession : session.Reachable bounds)
    {handle point result : Handle} {p : ℚ} {order : ℕ}
    (he : (session.pool.expr handle).PolynomialIn name) (hpoint : session.pool.expr point = .constant p)
    (hanswer : session.answer (taylor handle name point order) = (.ok result, later)) :
    (later.pool.expr result).PolynomialIn name ∧
      (later.pool.expr result).univariate.degree < order ∧
      (X - C p) ^ order ∣
        (session.pool.expr handle).univariate - (later.pool.expr result).univariate ∧
      (∀ q : ℚ[X], q.degree < order → (X - C p) ^ order ∣ (session.pool.expr handle).univariate - q →
        q = (later.pool.expr result).univariate) ∧
      ((session.pool.expr handle).univariate.degree < order →
        (later.pool.expr result).univariate = (session.pool.expr handle).univariate) ∧
      (order = 0 → later.pool.expr result = .zero) := by
  obtain ⟨t, hrun, -, -, hresult⟩ :=
    (taylor_performs hsession.consistent handle name point order).of_answer hanswer
  rw [hpoint] at hrun
  obtain ⟨ht, hunivariate, hzero⟩ := Taylor.taylor_run hsession.consistent.memo hrun he
  rw [hresult, hunivariate]
  exact ⟨ht, Taylor.degree_expansion_lt p order _, Taylor.dvd_sub_expansion p order _,
    fun q hdegree hdvd => Taylor.eq_expansion hdegree hdvd,
    fun hdegree => (Taylor.eq_expansion hdegree (by simp)).symm, hzero⟩

/-- In a session that read `x^3` and `1` the Taylor polynomial of order `2` about `1` is `3*x - 2`. The
difference `x^3 - 3*x + 2` is a multiple of `(x - 1)^2`. -/
theorem taylor_polynomial_text :
    ∃ (session later : Session) (handle point result : Handle), session.Reachable {} ∧
      session.pool.expr handle = .pow (.symbol "x") (.constant 3) ∧
      session.answer (taylor handle "x" point 2) = (.ok result, later) ∧
      later.pool.expr result = .add [.constant (-2), .mul [.constant 3, .symbol "x"]] ∧
      (later.pool.expr result).univariate.degree < 2 ∧
      (X - C 1) ^ 2 ∣ X ^ 3 - (later.pool.expr result).univariate := by
  have hread : List.Forall₂ (fun text e => Formula.read text = .ok e) ["x^3", "1"]
      [.pow (.symbol "x") (.constant 3), .constant 1] := .cons (by cbv) (.cons (by cbv) .nil)
  obtain ⟨session, handles, hsession, hmemo, - | @⟨_, handle, _, _, hhandle, - | @⟨_, point, _, _,
    hpoint, -⟩⟩⟩ := exists_parsed_all {} hread
  have hrun : ((ClosedForm.taylor {} (session.pool.expr handle) "x" (session.pool.expr point) 2).run.run
      session.memo).1 = .ok (.add [.constant (-2), .mul [.constant 3, .symbol "x"]]) := by
    rw [hmemo, hhandle.2, hpoint.2]
    cbv
  obtain ⟨result, later, hanswer, -, -, hresult⟩ :=
    (taylor_performs hsession.consistent handle "x" point 2).of_run (Prod.ext hrun rfl)
  have hpolynomial : (session.pool.expr handle).PolynomialIn "x" := by
    rw [hhandle.2]
    exact (polynomialIn_hereditary.pow _ _).mpr ⟨.symbol "x", 3, rfl⟩
  have hunivariate : (session.pool.expr handle).univariate = X ^ 3 := by
    rw [hhandle.2]
    exact (univariate_pow (.symbol "x") 3).trans (by rw [univariate_symbol])
  obtain ⟨-, hdegree, hdvd, -⟩ := taylor_polynomial hsession hpolynomial hpoint.2 hanswer
  rw [hunivariate] at hdvd
  exact ⟨session, later, handle, point, result, hsession, hhandle.2, hanswer, hresult.2, hdegree, hdvd⟩

end Session

end ClosedForm
