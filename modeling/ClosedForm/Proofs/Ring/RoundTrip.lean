import ClosedForm.Proofs.Expansion.Identity
import ClosedForm.Proofs.Ring.Extraction
import ClosedForm.Proofs.Sharing

/-!
# From coefficients to expressions and back

The sum of the monomials of a polynomial with rational coefficients has an expanded canonical form, whatever
the memo holds (`Polynomial.Numeric.ensures_toExpr`). The powers in it are those of the polynomial, so
extraction reads the same coefficients off it (`Polynomial.ensures_ofExpr_of_expanded`).

Together with the ring operations this makes the polynomials with rational coefficients a faithful copy of
those over the rationals (`Session.rational_polynomials`), as far as the degrees are not refused.
-/

open Polynomial (C X aeval)
open scoped Polynomial

namespace ClosedForm

open ClosedForm.Expr Canonical Expand

variable {bounds : Bounds} {name : String}

/-! ## One symbol among others -/

/-- An expression in one symbol denotes its polynomial in that symbol. -/
theorem Expr.PolynomialIn.polynomial_eq {e : Expr} (h : e.PolynomialIn name) :
    e.polynomial = aeval (MvPolynomial.X name) e.univariate := by
  let F : Functions (MvPolynomial String ℚ) := ⟨fun _ _ => none, fun _ => none⟩
  have hvalue := h.eval_eq (F := F) (σ := MvPolynomial.X)
  rw [h.1.eval_eq, MvPolynomial.aeval_X_left_apply] at hvalue
  exact Option.some.inj hvalue

/-- A polynomial in one symbol has no other monomials than powers of the symbol. -/
theorem exists_single_of_mem_support {f : ℚ[X]} {m : String →₀ ℕ}
    (h : m ∈ (aeval (MvPolynomial.X name : MvPolynomial String ℚ) f).support) :
    ∃ k ∈ f.support, m = Finsupp.single name k := by
  have hsum : aeval (MvPolynomial.X name : MvPolynomial String ℚ) f =
      ∑ k ∈ f.support, MvPolynomial.monomial (Finsupp.single name k) (f.coeff k) := by
    rw [Polynomial.aeval_def, Polynomial.eval₂_eq_sum, Polynomial.sum_def]
    refine Finset.sum_congr rfl fun k _ => ?_
    rw [MvPolynomial.X_pow_eq_monomial, MvPolynomial.algebraMap_eq, MvPolynomial.C_mul_monomial, mul_one]
  rw [hsum] at h
  obtain ⟨k, hk, hm⟩ := Finset.mem_biUnion.mp (MvPolynomial.support_sum h)
  exact ⟨k, hk, Finset.mem_singleton.mp (MvPolynomial.support_monomial_subset hm)⟩

namespace Polynomial

variable {p : Polynomial}

/-! ## The sum of the monomials -/

/-- The sum of the monomials as it is written at first. -/
def monomials (p : Polynomial) (name : String) : Expr :=
  .sum (p.coefficients.map fun t => .mul [t.2, .pow (.symbol name) (.integer t.1)])

theorem Numeric.exists_constant (h : Numeric p.coefficients) {t : Nat × Expr} (ht : t ∈ p.coefficients) :
    t.2 = .constant (constantValue t.2) := by
  obtain ⟨c, -, hc⟩ := h.number t ht
  rw [hc]
  rfl

theorem Numeric.polynomialIn_monomials (h : Numeric p.coefficients) (name : String) :
    (p.monomials name).PolynomialIn name := by
  refine polynomialIn_hereditary.sum (List.forall_mem_map.mpr fun t ht => ?_)
  refine (polynomialIn_hereditary.mul _).mpr ?_
  simp only [List.forall_mem_cons]
  refine ⟨?_, (polynomialIn_hereditary.pow _ _).mpr ⟨.symbol name, t.1, rfl⟩, by simp⟩
  rw [h.exists_constant ht]
  exact .constant _

theorem Numeric.univariate_monomials (h : Numeric p.coefficients) (name : String) :
    (p.monomials name).univariate = p.toRing := by
  rw [monomials, univariate_sum, toRing, overRationals, List.map_map, List.map_map]
  refine congrArg List.sum (List.map_congr_left fun t ht => ?_)
  have hpow : (Expr.pow (.symbol name) (.integer t.1)).univariate = X ^ t.1 :=
    (univariate_pow (.symbol name) t.1).trans (by rw [univariate_symbol])
  show (Expr.mul [t.2, .pow (.symbol name) (.integer t.1)]).univariate = _
  rw [univariate_mul, List.map_cons, List.map_singleton, List.prod_cons, List.prod_singleton, hpow,
    h.exists_constant ht, univariate_constant]
  rfl

/-- The monomials reduce, and so does their sum. -/
theorem Numeric.exists_expanded (h : Numeric p.coefficients) (bounds : Bounds) (name : String) :
    ∃ r, Reduces bounds (p.monomials name) r ∧ Expanded bounds (aeval (MvPolynomial.X name) p.toRing) r := by
  have hterms : ∀ e ∈ p.coefficients.map fun t => .mul [t.2, .pow (.symbol name) (.integer t.1)],
      ∃ r, Becomes bounds e r ∧ IsMonomial r := by
    refine List.forall_mem_map.mpr fun t ht => ?_
    obtain ⟨x, hx, hmonomial⟩ := Becomes.exists_symbol_pow bounds name t.1
    have hconstant : Becomes bounds t.2 t.2 := by
      rw [h.exists_constant ht]
      exact .leaf (.constant _)
    obtain ⟨r, hr, hmul⟩ := Becomes.exists_mul (.cons hconstant (.cons hx .nil))
    refine ⟨r, hr, hmul ?_⟩
    simp only [List.forall_mem_cons]
    refine ⟨?_, hmonomial, by simp⟩
    rw [h.exists_constant ht]
    exact isMonomial_constant _
  obtain ⟨rs, hrs⟩ := exists_forall₂ hterms
  have hbecomes : List.Forall₂ (Becomes bounds) _ rs := hrs.imp fun _ _ hr => hr.1
  have hsums : Sums bounds (aeval (MvPolynomial.X name) p.toRing) rs := by
    refine ⟨Becomes.forms hbecomes, fun r hr => ?_, ?_⟩
    · obtain ⟨e, -, -, hmonomial⟩ := exists_of_forall₂_right hrs hr
      exact hmonomial
    · rw [Becomes.polynomials hbecomes, ← polynomial_sum, ← h.univariate_monomials name]
      exact (h.polynomialIn_monomials name).polynomial_eq
  exact ⟨_, .sum (hbecomes.imp fun _ _ hr => hr.reduces), hsums.add⟩

/-- The canonical sum of the monomials is expanded. -/
theorem Numeric.ensures_toExpr (hpasses : 2 ≤ bounds.maxPasses) (h : Numeric p.coefficients) (name : String) :
    Ensures bounds (fun _ => False) (fun r => Expanded bounds (aeval (MvPolynomial.X name) p.toRing) r ∧
      r.PolynomialIn name) (p.toExpr bounds name) := by
  intro memo hmemo
  obtain ⟨r, hr, hexpanded⟩ := h.exists_expanded bounds name
  have hrun := hr.canonicalize hpasses hmemo
  have hin := Expr.PolynomialIn.canonicalize hmemo (Prod.ext hrun rfl) (h.polynomialIn_monomials name)
  show Ends _ _ ((canonicalize bounds (p.monomials name)).run.run memo).1
  rw [hrun]
  exact ⟨hexpanded, hin.1⟩

/-- Extraction reads the coefficients off an expanded expression in one symbol. -/
theorem ensures_ofExpr_of_expanded (hpasses : 2 ≤ bounds.maxPasses) {f : ℚ[X]} {r : Expr}
    (h : Expanded bounds (aeval (MvPolynomial.X name) f) r) (hin : r.PolynomialIn name)
    (hf : ∀ k ∈ f.support, k < exponentBound) :
    Ensures bounds (fun _ => False) (fun q => q = ofRing f) (ofExpr bounds r name) := by
  have hunivariate : r.univariate = f := by
    rw [univariate, h.polynomial, ← Polynomial.aeval_algHom_apply, MvPolynomial.aeval_X,
      Polynomial.aeval_X_left_apply]
  have hopens : r.PowersSatisfy (Opens bounds) := by
    refine h.powersSatisfy fun m hm other => ⟨?_, fun hadd => by cases hadd⟩
    obtain ⟨k, hk, rfl⟩ := exists_single_of_mem_support hm
    by_cases hother : other = name
    · rw [hother, Finsupp.single_eq_same]
      exact hf k hk
    · rw [Finsupp.single_eq_of_ne hother]
      exact Nat.two_pow_pos 32
  have hdegree : r.degree < exponentBound := by
    refine Nat.lt_of_le_pred (Nat.two_pow_pos 32) (h.degree_le fun m hm => ?_)
    obtain ⟨k, hk, rfl⟩ := exists_single_of_mem_support hm
    rw [Finsupp.degree_single]
    exact Nat.le_pred_of_lt (hf k hk)
  rw [← hunivariate]
  intro memo hmemo
  refine ((ensures_ofExpr_ofRing hpasses h.form.normal.reduces h.form hin.2 memo hmemo).mono
    fun _ hrefused => ?_).imp fun _ hp => hp.2
  exact absurd (hrefused hopens) (not_le.mpr hdegree)

end Polynomial

namespace Session

variable {p q : Polynomial} {session later : Session}

theorem leads_ofPolynomial {outcome : Except Error Handle}
    (hanswer : session.answer (ofPolynomial p name) = (outcome, later)) : session.Leads later := by
  have hleads : session.Leads (session.after (.ofPolynomial p name)) :=
    Leads.refl.after _ (by simp [Operation.handles, Pool.Has])
  have hlater : session.after (.ofPolynomial p name) = later := congrArg Prod.snd hanswer
  rwa [hlater] at hleads

/-- A polynomial with rational coefficients always gets an expression, which is expanded. -/
theorem exists_ofPolynomial (h : session.Consistent bounds) (hpasses : 2 ≤ bounds.maxPasses)
    (hp : Polynomial.Numeric p.coefficients) (name : String) :
    ∃ handle later r, session.answer (ofPolynomial p name) = (.ok handle, later) ∧
      session.Follows bounds later ∧ Pool.StandsFor r handle later.pool ∧
      Expanded bounds (aeval (MvPolynomial.X name) p.toRing) r ∧ r.PolynomialIn name := by
  obtain ⟨r, hrun, hr⟩ := (hp.ensures_toExpr hpasses name session.memo h.memo).exists_ok
  obtain ⟨handle, later, hanswer, hfollows, -, hstands⟩ :=
    (ofPolynomial_performs h p name).of_run (Prod.ext hrun rfl)
  exact ⟨handle, later, r, hanswer, hfollows, hstands, hr⟩

/-- What is extracted from a handle of an expanded expression in one symbol. -/
theorem answer_polynomial (h : session.Consistent bounds) (hpasses : 2 ≤ bounds.maxPasses) {f : ℚ[X]}
    {r : Expr} {handle : Handle} (hstands : Pool.StandsFor r handle session.pool)
    (hexpanded : Expanded bounds (aeval (MvPolynomial.X name) f) r) (hin : r.PolynomialIn name)
    (hf : ∀ k ∈ f.support, k < Polynomial.exponentBound) :
    (session.answer (polynomial handle name)).1 = .ok (.ofRing f) := by
  have hread : Ends _ _ ((Polynomial.ofExpr bounds r name).run.run session.memo).1 :=
    Polynomial.ensures_ofExpr_of_expanded hpasses hexpanded hin hf session.memo h.memo
  obtain ⟨read, hrun, rfl⟩ := hread.exists_ok
  rw [(polynomial_performs h handle name).outcome_eq, hstands.2, hrun]

/-- The polynomials whose coefficients are rational numbers other than zero are the coefficient maps of the
polynomials over the rationals. Constants and powers of the symbol are such. Sums of them are those of the
ring, and so are products and powers, which succeed as long as the degree is no larger than extraction
accepts, the power with exponent zero being one; so they have only numbers other than zero as
coefficients again, and degrees add up in products. With the bounds
of the configuration every session makes an expression of a polynomial with powers that extraction
accepts, and gets the polynomial from the expression again at any later time. -/
theorem rational_polynomials (hp : Polynomial.Numeric p.coefficients)
    (hq : Polynomial.Numeric q.coefficients) :
    (∀ c, Polynomial.ofConstant (.constant c) = .ofRing (C c)) ∧
    (∀ n, Polynomial.monomial n = .ofRing (X ^ n)) ∧
    (∀ f, Polynomial.Numeric (Polynomial.ofRing f).coefficients) ∧
    p = .ofRing p.toRing ∧
    p.add q = .ofRing (p.toRing + q.toRing) ∧
    (∀ bounds, p.toRing.natDegree + q.toRing.natDegree < Polynomial.exponentBound →
      p.mul bounds q = .ok (.ofRing (p.toRing * q.toRing))) ∧
    (∀ bounds n, n * p.toRing.natDegree < Polynomial.exponentBound →
      p.pow bounds n = .ok (.ofRing (p.toRing ^ n))) ∧
    (∀ bounds, p.pow bounds 0 = .ok (.ofConstant .one)) ∧
    (∀ bounds r d e, p.mul bounds q = .ok r → p.degree? = some d → q.degree? = some e →
      r.degree? = some (d + e)) ∧
    ∀ (session : Session) (name : String), session.Reachable {} →
      (∀ t ∈ p.coefficients, t.1 < Polynomial.exponentBound) →
      ∃ handle later, session.answer (ofPolynomial p name) = (.ok handle, later) ∧
        ∀ next, later.Leads next → (next.answer (polynomial handle name)).1 = .ok p := by
  have hmul (bounds : Bounds) :
      Ends (fun _ => Polynomial.exponentBound ≤ p.toRing.natDegree + q.toRing.natDegree) (· = .ofRing (p.toRing * q.toRing))
        (p.mul bounds q) := by
    have hring := Polynomial.ends_mul_ofRing bounds p.toRing q.toRing
    rwa [hp.ofRing_toRing, hq.ofRing_toRing] at hring
  refine ⟨Polynomial.ofConstant_eq, Polynomial.monomial_eq, Polynomial.numeric_ofRing, hp.ofRing_toRing.symm,
    ?_, fun bounds hdegree => (hmul bounds).eq_ok (not_le.mpr hdegree), fun bounds n hdegree => ?_,
    fun bounds => rfl, fun bounds r d e hr hd he => ?_, fun session name hsession hpowers => ?_⟩
  · conv_lhs => rw [← hp.ofRing_toRing, ← hq.ofRing_toRing]
    exact Polynomial.add_ofRing _ _
  · conv_lhs => rw [← hp.ofRing_toRing]
    exact Polynomial.pow_ofRing bounds hdegree
  · obtain rfl := (hmul bounds).of_eq_ok hr
    rw [hp.represents.degree?_eq_some_iff] at hd
    rw [hq.represents.degree?_eq_some_iff] at he
    have hproduct := (Polynomial.numeric_ofRing (p.toRing * q.toRing)).represents
    rw [Polynomial.toRing_ofRing] at hproduct
    rw [hproduct.degree?_eq_some_iff]
    exact ⟨mul_ne_zero hd.1 he.1, by rw [Polynomial.natDegree_mul hd.1 he.1, hd.2, he.2]⟩
  · obtain ⟨handle, later, r, hanswer, hlater, hstands, hexpanded, hin⟩ :=
      exists_ofPolynomial hsession.consistent (by decide) hp name
    have hreachable := hsession.leads (leads_ofPolynomial hanswer)
    refine ⟨handle, later, hanswer, fun next hnext => ?_⟩
    have hconsistent := (hreachable.leads hnext).consistent
    have hkept := hstands.mono hreachable.consistent.pool hconsistent.pool (hnext.extends hreachable)
    rw [answer_polynomial hconsistent (by decide) hkept hexpanded hin fun k hk => ?_, hp.ofRing_toRing]
    obtain ⟨t, ht, rfl⟩ := hp.exists_of_mem_support hk
    exact hpowers t ht

/-- `x + 1` times `x - 1` is `x^2 - 1`, without an entry for the power one, and a new session writes `x + 1` and
reads it again. -/
theorem rational_polynomials_conjugates :
    ∃ (p q : Polynomial) (later : Session) (handle : Handle),
      p.coefficients = [(0, .constant 1), (1, .constant 1)] ∧
      q.coefficients = [(0, .constant (-1)), (1, .constant 1)] ∧
      p.mul {} q = .ok (.ofRing (X ^ 2 - 1)) ∧
      (new {}).answer (ofPolynomial p "x") = (.ok handle, later) ∧
      (later.answer (polynomial handle "x")).1 = .ok p := by
  have hnumeric {c : ℚ} (hc : c ≠ 0) : Polynomial.Numeric [(0, .constant c), (1, .constant 1)] :=
    Polynomial.numeric_cons.mpr ⟨⟨c, hc, rfl⟩, by simp,
      Polynomial.numeric_cons.mpr ⟨⟨1, one_ne_zero, rfl⟩, by simp, Polynomial.numeric_nil⟩⟩
  have hring (c : ℚ) : Polynomial.toRing ⟨[(0, .constant c), (1, .constant 1)]⟩ = C c + X := by
    simp [Polynomial.toRing, Polynomial.overRationals, constantValue, constant?]
  obtain ⟨-, -, -, -, -, hmul, -, -, -, hsession⟩ :=
    rational_polynomials (p := ⟨[(0, .constant 1), (1, .constant 1)]⟩)
      (q := ⟨[(0, .constant (-1)), (1, .constant 1)]⟩) (hnumeric one_ne_zero) (hnumeric (by norm_num))
  obtain ⟨handle, later, hanswer, hread⟩ := hsession (new {}) "x" .new (by decide)
  have hproduct : (C 1 + X) * (C (-1) + X) = (X ^ 2 - 1 : ℚ[X]) := by
    rw [map_neg, map_one]
    ring
  refine ⟨_, _, later, handle, rfl, rfl, ?_, hanswer, hread later .refl⟩
  have hdegree (c : ℚ) : (C c + X : ℚ[X]).natDegree ≤ 1 := by compute_degree
  rw [hmul {} ?_, hring, hring, hproduct]
  rw [hring, hring]
  exact (Nat.add_le_add (hdegree 1) (hdegree (-1))).trans_lt (by decide)

end Session

end ClosedForm
