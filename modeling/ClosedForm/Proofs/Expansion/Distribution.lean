import ClosedForm.Expand
import ClosedForm.Proofs.Expansion.Rules
import ClosedForm.Proofs.Outcomes

/-!
# Multiplying out

Where exponents are moderate, multiplying out a polynomial form never fails, and ends with a sum of monomials
that denotes the same polynomial (`ends_expandNodes`). The lemmas follow the recursion: the products of
terms with the terms of one more factor (`ends_distributeOver`), the product of all factors
(`ends_distribute`), a power, and every node of the expression.

`Sums bounds p es` says that the expressions are monomials and add up to the polynomial, and
`Expanded bounds p e` that the expression is such a sum.
-/

namespace ClosedForm

open ClosedForm.Expr Canonical

namespace Expand

variable {bounds : Bounds}

/-- Monomials that add up to the polynomial. -/
structure Sums (bounds : Bounds) (p : MvPolynomial String ℚ) (es : List Expr) : Prop where
  form : ∀ e ∈ es, PolynomialForm bounds e
  monomial : ∀ e ∈ es, IsMonomial e
  polynomial : (es.map polynomial).sum = p

/-- A polynomial form without products and powers of sums. -/
structure Expanded (bounds : Bounds) (p : MvPolynomial String ℚ) (e : Expr) : Prop where
  form : PolynomialForm bounds e
  monomial : ∀ t ∈ e.terms, IsMonomial t
  polynomial : e.polynomial = p

variable {p q : MvPolynomial String ℚ}

theorem Sums.nil : Sums bounds 0 [] :=
  ⟨by simp, by simp, rfl⟩

theorem Sums.append {es fs : List Expr} (h : Sums bounds p es) (h' : Sums bounds q fs) :
    Sums bounds (p + q) (es ++ fs) where
  form := List.forall_mem_append.mpr ⟨h.form, h'.form⟩
  monomial := List.forall_mem_append.mpr ⟨h.monomial, h'.monomial⟩
  polynomial := by rw [List.map_append, List.sum_append, h.polynomial, h'.polynomial]

theorem sums_singleton {e : Expr} (hform : PolynomialForm bounds e) (hmonomial : IsMonomial e) :
    Sums bounds e.polynomial [e] :=
  ⟨by simpa using hform, by simpa using hmonomial, by simp⟩

/-- One of the monomials, and the others. -/
theorem Sums.of_cons {e : Expr} {es : List Expr} (h : Sums bounds p (e :: es)) :
    ∃ q, p = e.polynomial + q ∧ Sums bounds e.polynomial [e] ∧ Sums bounds q es := by
  obtain ⟨hform, hmonomial, hpolynomial⟩ := h
  rw [List.forall_mem_cons] at hform hmonomial
  refine ⟨_, hpolynomial.symm, sums_singleton hform.1 hmonomial.1, hform.2, hmonomial.2, rfl⟩

theorem expanded_of_isMonomial {e : Expr} (hform : PolynomialForm bounds e) (h : IsMonomial e) :
    Expanded bounds e.polynomial e := by
  refine ⟨hform, fun t ht => ?_, rfl⟩
  rw [terms_of_not_isAdd h.isAdd, List.mem_singleton] at ht
  rwa [ht]

/-- The sum of expanded expressions is expanded. -/
theorem expanded_add {es : List Expr} {ps : List (MvPolynomial String ℚ)}
    (h : List.Forall₂ (fun e p => Expanded bounds p e) es ps) :
    Expanded bounds ps.sum (Canonical.add es) := by
  have hforms : ∀ e ∈ es, PolynomialForm bounds e ∧ ∀ t ∈ e.terms, IsMonomial t := by
    intro e he
    obtain ⟨p, -, hexpanded⟩ := exists_of_forall₂_right h.flip he
    exact ⟨hexpanded.form, hexpanded.monomial⟩
  have hpolynomials : es.map polynomial = ps := by
    clear hforms
    induction h with
    | nil => rfl
    | cons hfirst _ ih => rw [List.map_cons, hfirst.polynomial, ih]
  have hmakes := makes_add fun e he => (hforms e he).1
  have hpolynomial : (Expr.add es).IsPolynomial :=
    .add fun e he => (hforms e he).1.evaluated.isPolynomial
  refine ⟨hmakes.form, ?_, ?_⟩
  · exact LinearForm.forall_terms_gatherList ofRests_isMonomial 1
      (fun e he => (hforms e he).1.normal) fun e he => (hforms e he).2
  · rw [hmakes.polynomial_eq hpolynomial, polynomial_add, hpolynomials]

theorem Sums.add {es : List Expr} (h : Sums bounds p es) : Expanded bounds p (Canonical.add es) := by
  have hes : List.Forall₂ (fun e p => Expanded bounds p e) es (es.map Expr.polynomial) := by
    rw [List.forall₂_map_right_iff, List.forall₂_same]
    exact fun e he => expanded_of_isMonomial (h.form e he) (h.monomial e he)
  rw [← h.polynomial]
  exact expanded_add hes

theorem Expanded.terms {e : Expr} (h : Expanded bounds p e) : Sums bounds p e.terms := by
  refine ⟨fun t ht => h.form.of_mem_terms ht, h.monomial, ?_⟩
  rw [← h.polynomial]
  cases e <;> simp [Expr.terms]

/-! ## Products of sums -/

/-- The product of two monomials is a monomial. -/
theorem ends_multiply {s t : Expr} (hs : Sums bounds p [s]) (ht : Sums bounds q [t]) :
    Ends (fun _ => False) (fun r => Sums bounds (p * q) [r]) (multiply bounds [s, t]) := by
  have hforms : ∀ f ∈ [s, t], PolynomialForm bounds f := by
    simpa using ⟨hs.form s (by simp), ht.form t (by simp)⟩
  obtain ⟨r, hr, hmonomial⟩ := exists_makes_mul hforms
  have hrule : multiply bounds [s, t] = .ok r := hr.rule
  have hpolynomial : (Expr.mul [s, t]).IsPolynomial :=
    .mul fun f hf => (hforms f hf).evaluated.isPolynomial
  have hproduct : r.polynomial = p * q := by
    rw [hr.polynomial_eq hpolynomial, ← hs.polynomial, ← ht.polynomial]
    simp
  rw [hrule, ← hproduct]
  exact sums_singleton hr.form (hmonomial (by
    simpa using ⟨hs.monomial s (by simp), ht.monomial t (by simp)⟩))

theorem ends_mapM_multiply {s : Expr} (hs : Sums bounds p [s]) {ts : List Expr} (h : Sums bounds q ts) :
    Ends (fun _ => False) (Sums bounds (p * q)) (ts.mapM fun t => multiply bounds [s, t]) := by
  induction ts generalizing q with
  | nil =>
    rw [← h.polynomial, List.map_nil, List.sum_nil, mul_zero]
    exact .nil
  | cons t ts ih =>
    obtain ⟨rest, rfl, hfirst, hrest⟩ := h.of_cons
    rw [List.mapM_cons, mul_add]
    exact (ends_multiply hs hfirst).bind fun r hr => (ih hrest).bind fun rs hrs => hr.append hrs

/-- The products with the terms of one more factor. -/
theorem ends_distributeOver {products : List Expr} {factor : Expr} (h : Sums bounds p products)
    (hfactor : Expanded bounds q factor) :
    Ends (fun _ => False) (Sums bounds (p * q)) (distributeOver bounds products factor) := by
  have hproducts : Ends (fun _ => False) (Sums bounds (p * q)) (products.flatMapM fun s =>
      factor.terms.mapM fun t => multiply bounds [s, t]) := by
    induction products generalizing p with
    | nil =>
      rw [List.flatMapM_nil, ← h.polynomial, List.map_nil, List.sum_nil, zero_mul]
      exact .nil
    | cons s products ih =>
      obtain ⟨rest, rfl, hfirst, hrest⟩ := h.of_cons
      rw [List.flatMapM_cons, add_mul]
      exact (ends_mapM_multiply hfirst hfactor.terms).bind fun rs hrs =>
        (ih hrest).bind fun ss hss => hrs.append hss
  exact hproducts.bind fun next hnext => hnext.add.terms

/-- The product of expanded factors is expanded. -/
theorem ends_distribute {factors : List Expr} {ps : List (MvPolynomial String ℚ)}
    (h : List.Forall₂ (fun f p => Expanded bounds p f) factors ps) :
    Ends (fun _ => False) (Expanded bounds ps.prod) (distribute bounds factors) := by
  have hfold {q : MvPolynomial String ℚ} {products : List Expr} (hproducts : Sums bounds q products) :
      Ends (fun _ => False) (Sums bounds (q * ps.prod))
        (factors.foldlM (distributeOver bounds) products) := by
    induction h generalizing q products with
    | nil =>
      rw [List.prod_nil, mul_one]
      exact hproducts
    | cons hfirst _ ih =>
      rw [List.foldlM_cons, List.prod_cons, ← mul_assoc]
      exact (ends_distributeOver hproducts hfirst).bind fun next hnext => ih hnext
  have hone : Sums bounds 1 [.one] := by
    have hsums : Sums bounds Expr.one.polynomial [.one] :=
      sums_singleton (.constant 1) (isMonomial_constant 1)
    simpa [Expr.one] using hsums
  have hproducts := hfold hone
  rw [one_mul] at hproducts
  exact hproducts.bind fun products h => h.add

/-! ## Powers of sums -/

theorem ends_multiplyOut {base product : Expr} (hbase : Expanded bounds p base)
    (hproduct : Expanded bounds q product) (n : Nat) :
    Ends (fun _ => False) (Expanded bounds (q * p ^ n)) (multiplyOut bounds base n product) := by
  induction n generalizing q product with
  | zero =>
    rw [pow_zero, mul_one]
    exact hproduct
  | succ n ih =>
    have hpair : List.Forall₂ (fun f p => Expanded bounds p f) [product, base] [q, p] :=
      .cons hproduct (.cons hbase .nil)
    refine (ends_distribute hpair).bind fun next hnext => ?_
    have hrest := ih hnext
    rwa [List.prod_cons, List.prod_singleton, mul_assoc, ← pow_succ'] at hrest

/-- The power of an expanded base is expanded, if the exponent is within both limits. -/
theorem ends_expandPower (hrange : bounds.InRange) {base : Expr} (h : Expanded bounds p base) {n : Nat}
    (hexpand : n ≤ bounds.maxExpandExponent) (hexact : n ≤ bounds.maxExactExponent) :
    Ends (fun _ => False) (Expanded bounds (p ^ n)) (expandPower bounds base (.constant n)) := by
  unfold expandPower
  show Ends _ _ (if _ then _ else _)
  split
  · next hcondition =>
    have hn : n ≠ 0 := by
      rintro rfl
      simp at hcondition
    have hmultiplied := ends_multiplyOut h h (n - 1)
    rw [mul_pow_sub_one hn] at hmultiplied
    rw [Rat.num_natCast, Int.natAbs_natCast]
    refine hmultiplied.bind fun expanded hexpanded => ?_
    rw [if_neg (by simp)]
    exact hexpanded
  · next hcondition =>
    obtain ⟨r, hr, hmonomial⟩ := exists_makes_pow hrange h.form hexact
    have hrule : power bounds base (.constant n) = .ok r := hr.rule
    have hpolynomial : r.polynomial = p ^ n := by
      rw [hr.polynomial_eq (.pow n h.form.evaluated.isPolynomial), polynomial_pow, h.polynomial]
    have hexpanded : IsMonomial r := by
      by_cases hn : n = 0
      · rw [hn, constant_natCast_zero, power_zero] at hrule
        cases hrule
        exact isMonomial_constant 1
      · have hadd : base.isAdd = false := by
          by_contra hadd
          exact hcondition (by simpa [Rational.isInteger, hn, hexpand] using hadd)
        refine hmonomial (h.monomial base ?_)
        rw [terms_of_not_isAdd hadd]
        exact List.mem_singleton_self base
    rw [hrule, ← hpolynomial]
    exact expanded_of_isMonomial hr.form hexpanded

/-! ## All nodes -/

theorem expandNodes_eq (e : Expr) : expandNodes bounds e =
    e.children.mapM (expandNodes bounds) >>= fun children => expandNode bounds (e.withChildren children) :=
  Expr.foldM_eq e

theorem expandNodes_pow (base : Expr) (c : Rat) : expandNodes bounds (.pow base (.constant c)) =
    expandNodes bounds base >>= fun b => expandPower bounds b (.constant c) := by
  have hconstant : expandNodes bounds (.constant c) = .ok (.constant c) := by
    rw [expandNodes_eq]
    rfl
  rw [expandNodes_eq]
  show [base, .constant c].mapM (expandNodes bounds) >>= _ = _
  rw [List.mapM_cons, List.mapM_cons, List.mapM_nil, hconstant]
  cases expandNodes bounds base <;> rfl

theorem ends_mapM_expandNodes {es : List Expr}
    (h : ∀ e ∈ es, Ends (fun _ => False) (Expanded bounds e.polynomial) (expandNodes bounds e)) :
    Ends (fun _ => False) (fun rs => List.Forall₂ (fun r p => Expanded bounds p r) rs
      (es.map polynomial)) (es.mapM (expandNodes bounds)) := by
  induction es with
  | nil => exact .nil
  | cons e es ih =>
    rw [List.mapM_cons]
    exact (h e (by simp)).bind fun r hr =>
      (ih fun d hd => h d (by simp [hd])).bind fun rs hrs => .cons hr hrs

/-- Multiplying out never fails on a polynomial form in which no sum is raised beyond the limits, and ends with
a sum of monomials for the same polynomial. -/
theorem ends_expandNodes (hrange : bounds.InRange)
    (hlimits : bounds.maxExpandExponent ≤ bounds.maxExactExponent) {c : Expr}
    (h : PolynomialForm bounds c)
    (hpowers : c.PowersSatisfy fun base n => base.isAdd = true → n ≤ bounds.maxExpandExponent) :
    Ends (fun _ => False) (Expanded bounds c.polynomial) (expandNodes bounds c) := by
  rw [expandNodes_eq]
  induction hpowers with
  | constant c => exact expanded_of_isMonomial (.constant c) (isMonomial_constant c)
  | symbol name => exact expanded_of_isMonomial (.symbol name) (isMonomial_symbol name)
  | @add ts _ ih =>
    have hchildren := ends_mapM_expandNodes fun t ht => by
      rw [expandNodes_eq]
      exact ih t ht (h.of_mem_terms ht)
    refine hchildren.bind fun rs hrs => ?_
    rw [polynomial_add]
    exact expanded_add hrs
  | @mul fs _ ih =>
    have hchildren := ends_mapM_expandNodes fun f hf => by
      rw [expandNodes_eq]
      exact ih f hf (h.of_mem_mul f hf)
    refine hchildren.bind fun rs hrs => ?_
    rw [polynomial_mul]
    exact ends_distribute hrs
  | @pow base n hn _ ih =>
    obtain ⟨m, heq, hne, -, hbase, hform⟩ := h.of_pow
    obtain rfl : n = m := by simpa using heq
    have hexpanded := ih hform
    rw [← expandNodes_eq] at hexpanded
    rw [← expandNodes_eq, expandNodes_pow, polynomial_pow]
    cases base with
    | add ts =>
      exact hexpanded.bind fun b hb => ends_expandPower hrange hb (hn rfl) ((hn rfl).trans hlimits)
    | symbol name =>
      -- A power of a symbol is a monomial, whatever its exponent is.
      have hsymbol : expandNodes bounds (.symbol name) = .ok (.symbol name) := by
        rw [expandNodes_eq]
        rfl
      have hpower : expandPower bounds (.symbol name) (.constant n) = .ok (raise (.symbol name) n) := by
        simp [expandPower, constant?, isAdd, hbase.power hne]
      rw [hsymbol, ← polynomial_raise]
      show Ends _ _ (expandPower bounds (.symbol name) (.constant n))
      rw [hpower]
      exact expanded_of_isMonomial (hbase.form_raise hform hne) (isMonomial_raise name n)
    | _ => exact hbase.elim

end Expand

end ClosedForm
