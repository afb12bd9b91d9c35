import ClosedForm.Proofs.Expansion.Distribution

/-!
# Expansion decides polynomial identity

A monomial is spelled by its coefficient and the exponents of its symbols (`Spells`), and denotes the
monomial with these exponents (`Spells.polynomial_eq`). In an expanded expression no two terms have the same
exponents, so its terms can be read off the coefficients of the polynomial (`Expanded.mem_terms_iff`), and
there is one expanded expression for each polynomial (`Expanded.eq`).

So `expand` succeeds on polynomial expressions of moderate degree, and gives the same handle for two of them
if and only if they denote the same polynomial (`Session.expand_eq_iff`).
-/

namespace ClosedForm

open ClosedForm.Expr Canonical MvPolynomial

variable {bounds : Bounds}

/-! ## Terms of normal expressions -/

namespace Canonical.Normal

variable {e : Expr}

theorem sum_terms (h : Normal bounds e) : Expr.sum e.terms = e := by
  cases h with
  | @add ts _ hshape =>
    match ts, hshape.two_le with
    | _ :: _ :: _, _ => rfl
  | _ => rfl

theorem ascending_terms (h : Normal bounds e) : Ascending e.terms := by
  cases h with
  | add _ hshape => exact hshape.ascending
  | _ => exact List.pairwise_singleton _ _

theorem distinct_terms (h : Normal bounds e) : (e.terms.map fun t => t.splitCoefficient.2).Nodup := by
  cases h with
  | add _ hshape => exact hshape.distinct
  | _ => exact List.nodup_singleton _

theorem zero_not_mem_terms (h : Normal bounds e) (hzero : e ≠ .zero) : .zero ∉ e.terms := by
  cases h with
  | add _ hshape => exact hshape.not_zero
  | _ => exact fun hmem => hzero (List.mem_singleton.mp hmem).symm

theorem terms_ne_nil (h : Normal bounds e) : e.terms ≠ [] := by
  cases h with
  | add _ hshape => exact List.ne_nil_of_length_pos (lt_of_lt_of_le two_pos hshape.two_le)
  | _ => exact List.cons_ne_nil _ _

end Canonical.Normal

namespace Expand

/-! ## Monomials -/

/-- The exponents of some symbols as a vector. -/
noncomputable def exponents (vs : List (String × Nat)) : String →₀ Nat :=
  (vs.map fun v => Finsupp.single v.1 v.2).sum

theorem exponents_cons (v : String × Nat) (vs : List (String × Nat)) :
    exponents (v :: vs) = Finsupp.single v.1 v.2 + exponents vs := rfl

theorem exponents_of_not_mem {vs : List (String × Nat)} {name : String}
    (h : name ∉ vs.map Prod.fst) : exponents vs name = 0 := by
  induction vs with
  | nil => rfl
  | cons v vs ih =>
    simp only [List.map_cons, List.mem_cons, not_or] at h
    rw [exponents_cons, Finsupp.add_apply, Finsupp.single_eq_of_ne h.1, ih h.2]

theorem exponents_of_mem {vs : List (String × Nat)} (hnodup : (vs.map Prod.fst).Nodup)
    {v : String × Nat} (h : v ∈ vs) : exponents vs v.1 = v.2 := by
  induction vs with
  | nil => cases h
  | cons w vs ih =>
    rw [List.map_cons, List.nodup_cons] at hnodup
    rw [exponents_cons, Finsupp.add_apply]
    rcases List.mem_cons.mp h with rfl | h
    · rw [Finsupp.single_eq_same, exponents_of_not_mem hnodup.1, add_zero]
    · have hne : v.1 ≠ w.1 := fun heq => hnodup.1 (heq ▸ List.mem_map_of_mem h)
      rw [Finsupp.single_eq_of_ne hne, zero_add, ih hnodup.2 h]

/-- Exponents other than zero are determined by the vector, up to their order. -/
theorem perm_of_exponents_eq {vs ws : List (String × Nat)} (hvs : (vs.map Prod.fst).Nodup)
    (hws : (ws.map Prod.fst).Nodup) (hvs' : ∀ v ∈ vs, v.2 ≠ 0) (hws' : ∀ w ∈ ws, w.2 ≠ 0)
    (h : exponents vs = exponents ws) : vs.Perm ws := by
  have hmem {us : List (String × Nat)} (hus : (us.map Prod.fst).Nodup) (hus' : ∀ u ∈ us, u.2 ≠ 0)
      (u : String × Nat) : u ∈ us ↔ u.2 ≠ 0 ∧ exponents us u.1 = u.2 := by
    refine ⟨fun hu => ⟨hus' u hu, exponents_of_mem hus hu⟩, fun ⟨hne, heq⟩ => ?_⟩
    have hname : u.1 ∈ us.map Prod.fst := by
      by_contra hnot
      exact hne (heq.symm.trans (exponents_of_not_mem hnot))
    obtain ⟨w, hw, hkey⟩ := List.mem_map.mp hname
    have hvalue := exponents_of_mem hus hw
    rw [hkey, heq] at hvalue
    rwa [show u = w from Prod.ext hkey.symm hvalue]
  rw [List.perm_ext_iff_of_nodup hvs.of_map hws.of_map]
  intro u
  rw [hmem hvs hvs', hmem hws hws', h]

/-- The powers of symbols. -/
def symbolPowers (vs : List (String × Nat)) : List Expr :=
  vs.map fun v => raise (.symbol v.1) v.2

theorem degrees_symbolPowers (vs : List (String × Nat)) :
    ((symbolPowers vs).map degree).sum = (exponents vs).degree := by
  induction vs with
  | nil => exact (map_zero Finsupp.degree).symm
  | cons v vs ih =>
    have hcons : symbolPowers (v :: vs) = raise (.symbol v.1) v.2 :: symbolPowers vs := rfl
    rw [hcons, List.map_cons, List.sum_cons, ih, degree_raise, degree_symbol, one_mul, exponents_cons,
      map_add, Finsupp.degree_single]

/-- The term consists of the coefficient and powers of symbols. -/
structure Spells (bounds : Bounds) (t : Expr) (c : Rat) (vs : List (String × Nat)) : Prop where
  term : IsTerm bounds c (symbolPowers vs)
  eq : t = Expr.product (withFactor c (symbolPowers vs))
  nodup : (vs.map Prod.fst).Nodup
  ne_zero : ∀ v ∈ vs, v.2 ≠ 0

theorem exists_symbolPowers {gs : List Expr} (hforms : ∀ g ∈ gs, PolynomialForm bounds g)
    (hconstant : ∀ g ∈ gs, g.isConstant = false) (hmul : ∀ g ∈ gs, g.isMul = false)
    (hbases : ∀ g ∈ gs, ∃ name, factorBase g = .symbol name) :
    ∃ vs, gs = symbolPowers vs ∧ (∀ v ∈ vs, v.2 ≠ 0) ∧
      gs.map factorBase = (vs.map Prod.fst).map .symbol := by
  induction gs with
  | nil => exact ⟨[], rfl, by simp, rfl⟩
  | cons g gs ih =>
    simp only [List.forall_mem_cons] at hforms hconstant hmul hbases
    obtain ⟨vs, rfl, hne, hnames⟩ := ih hforms.2 hconstant.2 hmul.2 hbases.2
    obtain ⟨name, hname⟩ := hbases.1
    obtain ⟨n, hn, -, -, -, hg⟩ := hforms.1.exists_raise hconstant.1 hmul.1
    rw [hname] at hg
    refine ⟨(name, n) :: vs, ?_, List.forall_mem_cons.mpr ⟨hn, hne⟩, ?_⟩
    · rw [hg]
      rfl
    · rw [List.map_cons, List.map_cons, List.map_cons, hnames, hname]

/-- Every monomial but zero is spelled by a coefficient and exponents. -/
theorem exists_spells {t : Expr} (hform : PolynomialForm bounds t) (hmonomial : IsMonomial t)
    (hzero : t ≠ .zero) : ∃ c vs, Spells bounds t c vs := by
  cases hconstant : t.isConstant with
  | true =>
    obtain ⟨c, rfl⟩ := isConstant_iff.mp hconstant
    have hc : c ≠ 0 := by
      rintro rfl
      exact hzero rfl
    exact ⟨c, [], .constant hc, (product_withFactor_nil c).symm, List.nodup_nil, by simp⟩
  | false =>
    obtain ⟨c, gs, hc, hshape, hgs, rfl⟩ := hform.normal.exists_term hconstant hmonomial.isAdd
    have hevaluated := hform.evaluated
    rw [evaluated_product_iff, evaluated_withFactor_iff] at hevaluated
    obtain ⟨vs, rfl, hne, hnames⟩ := exists_symbolPowers (fun g hg => ⟨hgs g hg, hevaluated g hg⟩)
      hshape.not_constant hshape.not_mul ((isMonomial_term_iff hshape).mp hmonomial)
    have hbases := hshape.bases
    rw [hnames] at hbases
    exact ⟨c, vs, ⟨hc, hgs, .inr hshape⟩, rfl, hbases.of_map, hne⟩

theorem polynomial_symbolPowers (vs : List (String × Nat)) :
    ((symbolPowers vs).map polynomial).prod = monomial (exponents vs) 1 := by
  induction vs with
  | nil => rfl
  | cons v vs ih =>
    rw [symbolPowers, List.map_cons, List.map_cons, List.prod_cons]
    rw [symbolPowers] at ih
    rw [ih, polynomial_raise, polynomial_symbol, X_pow_eq_monomial, monomial_mul, one_mul]
    rfl

namespace Spells

variable {t s : Expr} {c d : Rat} {vs ws : List (String × Nat)}

theorem polynomial_eq (h : Spells bounds t c vs) : t.polynomial = monomial (exponents vs) c := by
  have hproduct : t.polynomial = C c * ((symbolPowers vs).map polynomial).prod := by
    rw [h.eq, polynomial_product]
    by_cases hc : c = 1
    · rw [hc, withFactor_one, C_1, one_mul]
    · rw [withFactor_of_ne hc, List.map_cons, List.prod_cons, polynomial_constant]
  rw [hproduct, polynomial_symbolPowers, C_mul_monomial, mul_one]

theorem splitCoefficient_eq (h : Spells bounds t c vs) :
    t.splitCoefficient = (c, Expr.product (symbolPowers vs)) := by
  rw [h.eq]
  rcases h.term.shape with hnil | hshape
  · rw [hnil, product_withFactor_nil]
    rfl
  · exact hshape.splitCoefficient_term

/-- Monomials with the same exponents have the same factors. -/
theorem symbolPowers_eq (h : Spells bounds t c vs) (h' : Spells bounds s d ws)
    (hexponents : exponents vs = exponents ws) : symbolPowers vs = symbolPowers ws := by
  have hperm : (symbolPowers vs).Perm (symbolPowers ws) :=
    (perm_of_exponents_eq h.nodup h'.nodup h.ne_zero h'.ne_zero hexponents).map _
  rcases h.term.shape with hnil | hshape
  · rw [hnil] at hperm ⊢
    exact (List.nil_perm.mp hperm).symm
  rcases h'.term.shape with hnil | hshape'
  · rw [hnil] at hperm ⊢
    exact List.perm_nil.mp hperm
  · exact hshape.ascending.eq_of_perm hshape'.ascending hperm

end Spells

/-! ## Expanded expressions -/

variable {p : MvPolynomial String ℚ} {e d : Expr}

theorem Expanded.exists_spells (h : Expanded bounds p e) {t : Expr} (ht : t ∈ e.terms)
    (hzero : t ≠ .zero) : ∃ c vs, Spells bounds t c vs :=
  Expand.exists_spells (h.form.of_mem_terms ht) (h.monomial t ht) hzero

theorem Expanded.eq_sum (h : Expanded bounds p e) : p = ∑ s ∈ e.terms.toFinset, s.polynomial := by
  rw [List.sum_toFinset _ h.form.normal.distinct_terms.of_map]
  exact h.terms.polynomial.symm

/-- The coefficient of a term is the one of the polynomial at its exponents. -/
theorem Expanded.coeff_eq (h : Expanded bounds p e) {t : Expr} (ht : t ∈ e.terms) {c : Rat}
    {vs : List (String × Nat)} (hspells : Spells bounds t c vs) : coeff (exponents vs) p = c := by
  have hdistinct := h.form.normal.distinct_terms
  rw [h.eq_sum, coeff_sum, Finset.sum_eq_single t]
  · rw [hspells.polynomial_eq, coeff_monomial, if_pos rfl]
  · intro s hs hne
    rw [List.mem_toFinset] at hs
    by_cases hzero : s = .zero
    · rw [hzero, polynomial_zero, coeff_zero]
    -- Another term with the same exponents would differ from this one in its coefficient only.
    obtain ⟨d, ws, hother⟩ := h.exists_spells hs hzero
    rw [hother.polynomial_eq, coeff_monomial, if_neg]
    intro hexponents
    refine hne (List.inj_on_of_nodup_map hdistinct hs ht ?_)
    rw [hother.splitCoefficient_eq, hspells.splitCoefficient_eq, hother.symbolPowers_eq hspells hexponents]
  · exact fun hnot => absurd (List.mem_toFinset.mpr ht) hnot

/-- The terms of an expanded expression are the monomials that its polynomial has. -/
theorem Expanded.mem_terms_iff (h : Expanded bounds p e) {t : Expr} {c : Rat}
    {vs : List (String × Nat)} (hspells : Spells bounds t c vs) :
    t ∈ e.terms ↔ coeff (exponents vs) p = c := by
  refine ⟨fun ht => h.coeff_eq ht hspells, fun hcoeff => ?_⟩
  -- Some term contributes to the coefficient, and it can only be this one.
  have hsum : coeff (exponents vs) (∑ s ∈ e.terms.toFinset, s.polynomial) ≠ 0 := by
    rw [← h.eq_sum, hcoeff]
    exact hspells.term.ne_zero
  rw [coeff_sum] at hsum
  obtain ⟨s, hs, hne⟩ := Finset.exists_ne_zero_of_sum_ne_zero hsum
  rw [List.mem_toFinset] at hs
  have hzero : s ≠ .zero := by
    rintro rfl
    exact hne (by rw [polynomial_zero, coeff_zero])
  obtain ⟨d, ws, hother⟩ := h.exists_spells hs hzero
  have hexponents : exponents ws = exponents vs := by
    by_contra hnot
    exact hne (by rw [hother.polynomial_eq, coeff_monomial, if_neg hnot])
  have hd := h.coeff_eq hs hother
  rw [hexponents, hcoeff] at hd
  have heq : t = s := by
    rw [hspells.eq, hother.eq, hother.symbolPowers_eq hspells hexponents, hd]
  rwa [heq]

/-- The powers in an expanded expression are those of the monomials that its polynomial has. -/
theorem Expanded.powersSatisfy {P : Expr → Nat → Prop} (h : Expanded bounds p e)
    (hP : ∀ m ∈ p.support, ∀ name, P (.symbol name) (m name)) : e.PowersSatisfy P := by
  refine .of_terms fun t ht => ?_
  by_cases hzero : t = .zero
  · rw [hzero]
    exact .constant 0
  obtain ⟨c, vs, hspells⟩ := h.exists_spells ht hzero
  have hmem : exponents vs ∈ p.support := by
    rw [mem_support_iff, h.coeff_eq ht hspells]
    exact hspells.term.ne_zero
  rw [hspells.eq]
  refine .product fun f hf => ?_
  rcases mem_withFactor hf with rfl | hf
  · exact .constant c
  · obtain ⟨v, hv, rfl⟩ := List.mem_map.mp hf
    have hpower := hP _ hmem v.1
    rw [exponents_of_mem hspells.nodup hv] at hpower
    unfold raise
    split
    · exact .symbol v.1
    · exact .pow hpower (.symbol v.1)

/-- The terms of an expanded expression have the degrees of the monomials that its polynomial has. -/
theorem Expanded.degree_le (h : Expanded bounds p e) {d : Nat} (hd : ∀ m ∈ p.support, m.degree ≤ d) :
    e.degree ≤ d := by
  refine degree_le_of_terms fun t ht => ?_
  by_cases hzero : t = .zero
  · rw [hzero]
    exact Nat.zero_le d
  obtain ⟨c, vs, hspells⟩ := h.exists_spells ht hzero
  have hmem : exponents vs ∈ p.support := by
    rw [mem_support_iff, h.coeff_eq ht hspells]
    exact hspells.term.ne_zero
  rw [hspells.eq, degree_product, degrees_withFactor, degrees_symbolPowers]
  exact hd _ hmem

/-- There is one expanded expression for each polynomial. -/
theorem Expanded.eq (h : Expanded bounds p e) (h' : Expanded bounds p d) : e = d := by
  have hle {e d : Expr} (h : Expanded bounds p e) (h' : Expanded bounds p d) {t : Expr}
      (ht : t ∈ e.terms) (hzero : t ≠ .zero) : t ∈ d.terms := by
    obtain ⟨c, vs, hspells⟩ := h.exists_spells ht hzero
    exact (h'.mem_terms_iff hspells).mpr ((h.mem_terms_iff hspells).mp ht)
  have hzero {e d : Expr} (h : Expanded bounds p e) (h' : Expanded bounds p d) (hd : d = .zero) :
      e = .zero := by
    by_contra hne
    obtain ⟨t, ht⟩ := List.exists_mem_of_ne_nil _ h.form.normal.terms_ne_nil
    have htne : t ≠ .zero := fun heq => h.form.normal.zero_not_mem_terms hne (heq ▸ ht)
    have hmem := hle h h' ht htne
    rw [hd] at hmem
    exact htne (List.mem_singleton.mp hmem)
  by_cases he : e = .zero
  · exact he.trans (hzero h' h he).symm
  by_cases hd : d = .zero
  · exact (hzero h h' hd).trans hd.symm
  have hperm : e.terms.Perm d.terms := by
    rw [List.perm_ext_iff_of_nodup h.form.normal.distinct_terms.of_map
      h'.form.normal.distinct_terms.of_map]
    exact fun t => ⟨fun ht => hle h h' ht fun heq => h.form.normal.zero_not_mem_terms he (heq ▸ ht),
      fun ht => hle h' h ht fun heq => h'.form.normal.zero_not_mem_terms hd (heq ▸ ht)⟩
  rw [← h.form.normal.sum_terms, ← h'.form.normal.sum_terms,
    h.form.normal.ascending_terms.eq_of_perm h'.form.normal.ascending_terms hperm]

/-- The expansion of what reduces to a polynomial form in which no sum is raised beyond the limits succeeds
with every reachable memo. -/
theorem ensures_expand_of_reduces (hrange : bounds.InRange) (hpasses : 2 ≤ bounds.maxPasses)
    (hlimits : bounds.maxExpandExponent ≤ bounds.maxExactExponent) {c : Expr} (h : Reduces bounds e c)
    (hform : PolynomialForm bounds c)
    (hpowers : c.PowersSatisfy fun base n => base.isAdd = true → n ≤ bounds.maxExpandExponent) :
    Ensures bounds (fun _ => False) (Expanded bounds c.polynomial) (expand bounds e) := by
  refine (h.ensures hpasses).bind (.canonicalize e) ?_
  rintro _ rfl
  refine Ensures.bind (.lift _) (.lift (ends_expandNodes hrange hlimits hform hpowers)) fun r hr => ?_
  -- What is multiplied out is canonical already.
  intro memo hmemo
  rw [hr.form.normal.reduces.canonicalize hpasses hmemo]
  exact hr

/-- The expansion of a polynomial expression of moderate degree succeeds with every reachable memo. -/
theorem ensures_expand (hrange : bounds.InRange) (hpasses : 2 ≤ bounds.maxPasses)
    (hlimits : bounds.maxExpandExponent ≤ bounds.maxExactExponent)
    (h : e.PolynomialWithin bounds.maxExactExponent) (hdegree : e.degree ≤ bounds.maxExpandExponent) :
    Ensures bounds (fun _ => False) (Expanded bounds e.polynomial) (expand bounds e) := by
  obtain ⟨c, hc⟩ := exists_becomes hrange h.powersSatisfy
  rw [← hc.polynomial_eq]
  exact ensures_expand_of_reduces hrange hpasses hlimits hc.reduces hc.form
    ((hc.form.powersSatisfy (hc.degree_le.trans hdegree)).mono fun _ _ hn _ => hn)

end Expand

namespace Session

open Expand

/-- An expansion that ends with an expanded expression is answered with a handle of it. -/
theorem expand_of_ensures {bounds : Bounds} {session : Session} (hsession : session.Consistent bounds)
    {handle : Handle} {f : MvPolynomial String ℚ}
    (h : Ensures bounds (fun _ => False) (Expanded bounds f)
      (ClosedForm.expand bounds (session.pool.expr handle))) :
    ∃ result later r, session.answer (expand handle) = (.ok result, later) ∧
      session.Follows bounds later ∧ Pool.StandsFor r result later.pool ∧ Expanded bounds f r := by
  obtain ⟨r, hrun, hr⟩ := (h session.memo hsession.memo).exists_ok
  obtain ⟨result, later, hanswer, hfollows, hstands⟩ := (expand_performs hsession handle).of_ok hrun
  exact ⟨result, later, r, hanswer, hfollows, hstands, hr⟩

theorem exists_expand {session : Session} (hsession : session.Consistent {}) {handle : Handle}
    (h : (session.pool.expr handle).PolynomialWithin ({} : Bounds).maxExactExponent)
    (hdegree : (session.pool.expr handle).degree ≤ ({} : Bounds).maxExpandExponent) :
    ∃ result later r, session.answer (expand handle) = (.ok result, later) ∧
      session.Follows {} later ∧ Pool.StandsFor r result later.pool ∧
      Expanded {} (session.pool.expr handle).polynomial r :=
  expand_of_ensures hsession
    (ensures_expand (by unfold Bounds.InRange; decide) (by decide) (by decide) h hdegree)

/-- In every session with the bounds of the configuration, expanding two polynomial expressions of moderate
degree, one after the other, succeeds, and gives the same handle if and only if they denote the same
polynomial. -/
theorem expand_eq_iff {session : Session} (hsession : session.Reachable {}) {a b : Handle}
    (hb : b < session.pool.size)
    (hpolynomial : (session.pool.expr a).PolynomialWithin ({} : Bounds).maxExactExponent)
    (hpolynomial' : (session.pool.expr b).PolynomialWithin ({} : Bounds).maxExactExponent)
    (hdegree : (session.pool.expr a).degree ≤ ({} : Bounds).maxExpandExponent)
    (hdegree' : (session.pool.expr b).degree ≤ ({} : Bounds).maxExpandExponent) :
    ∃ first second middle later, session.answer (expand a) = (.ok first, middle) ∧
      middle.answer (expand b) = (.ok second, later) ∧
      (first = second ↔ (session.pool.expr a).polynomial = (session.pool.expr b).polynomial) := by
  have hconsistent := hsession.consistent
  obtain ⟨first, middle, r, hfirst, hmiddle, hstands, hr⟩ :=
    exists_expand hconsistent hpolynomial hdegree
  have hexpr := hmiddle.pool.expr_eq hconsistent.pool hmiddle.consistent.pool hb
  rw [← hexpr] at hpolynomial' hdegree'
  obtain ⟨second, later, s, hsecond, hlater, hstands', hs⟩ :=
    exists_expand hmiddle.consistent hpolynomial' hdegree'
  have hkept := hstands.mono hmiddle.consistent.pool hlater.consistent.pool hlater.pool
  rw [hexpr] at hs
  refine ⟨first, second, middle, later, hfirst, hsecond, fun heq => ?_, fun heq => ?_⟩
  · have hsame : r = s := by rw [← hkept.2, ← hstands'.2, heq]
    rw [← hr.polynomial, ← hs.polynomial, hsame]
  · rw [heq] at hr
    exact Pool.expr_injective hlater.consistent.pool hkept.1 hstands'.1
      (hkept.2.trans ((hr.eq hs).trans hstands'.2.symm))

/-- `(x + 1)^2` and `x^2 + 2*x + 1` have the same expansion. -/
theorem expand_eq_iff_square :
    ∃ (session middle later : Session) (a b first second : Handle), session.Reachable {} ∧
      session.pool.expr a = .pow (.add [.symbol "x", .constant 1]) (.constant 2) ∧
      session.pool.expr b = .add [.pow (.symbol "x") (.constant 2),
        .mul [.constant 2, .symbol "x"], .constant 1] ∧
      session.answer (expand a) = (.ok first, middle) ∧
      middle.answer (expand b) = (.ok second, later) ∧ first = second := by
  have hread : Formula.read "(x + 1)^2" =
      .ok (.pow (.add [.symbol "x", .constant 1]) (.constant 2)) := by
    cbv
  have hread' : Formula.read "x^2 + 2*x + 1" = .ok (.add [.pow (.symbol "x") (.constant 2),
      .mul [.constant 2, .symbol "x"], .constant 1]) := by
    cbv
  have hnone (session : Session) (text : String) :
      session.pool.Has (Operation.parse text).handles := by
    simp [Operation.handles, Pool.Has]
  obtain ⟨a, -, ha⟩ := parse_spec (new_consistent {}) hread
  have hreachable : ((new {}).after (.parse "(x + 1)^2")).Reachable {} := .after _ .new (hnone _ _)
  generalize (new {}).after (.parse "(x + 1)^2") = start at ha hreachable
  obtain ⟨b, -, hb⟩ := parse_spec hreachable.consistent hread'
  have hfollows := hreachable.consistent.after (.parse "x^2 + 2*x + 1") (hnone _ _)
  replace ha := ha.mono hreachable.consistent.pool hfollows.consistent.pool hfollows.pool
  replace hreachable := hreachable.after (.parse "x^2 + 2*x + 1") (hnone _ _)
  generalize start.after (.parse "x^2 + 2*x + 1") = session at ha hb hreachable
  have hsquare {limit : Nat} (hlimit : 2 ≤ limit) {base : Expr} (h : base.PolynomialWithin limit) :
      (Expr.pow base (.constant 2)).PolynomialWithin limit :=
    .pow (n := 2) hlimit h
  have hdegree (base : Expr) : (Expr.pow base (.constant 2)).degree = base.degree * 2 :=
    degree_pow base 2
  have hpolynomial (base : Expr) :
      (Expr.pow base (.constant 2)).polynomial = base.polynomial ^ 2 :=
    polynomial_pow base 2
  obtain ⟨first, second, middle, later, hfirst, hsecond, hiff⟩ :=
    expand_eq_iff hreachable hb.1 (a := a) (b := b) (by
      rw [ha.2]
      exact hsquare (by decide) (.add (by simp) (by simpa using ⟨.symbol "x", .constant 1⟩))) (by
      rw [hb.2]
      exact .add (by simp) (by
        simpa using ⟨hsquare (by decide) (.symbol "x"),
          .mul (by simp) (by simpa using ⟨.constant 2, .symbol "x"⟩), .constant 1⟩)) (by
      rw [ha.2, hdegree]
      decide) (by
      rw [hb.2, degree_add_le_iff]
      simp [hdegree])
  refine ⟨session, middle, later, a, b, first, second, hreachable, ha.2, hb.2, hfirst, hsecond,
    hiff.mpr ?_⟩
  rw [ha.2, hb.2]
  simp only [hpolynomial, polynomial_add, polynomial_mul, polynomial_symbol, polynomial_constant,
    List.map_cons, List.map_nil, List.sum_cons, List.sum_nil, List.prod_cons, List.prod_nil]
  have htwo : (C 2 : MvPolynomial String ℚ) = 2 := map_ofNat C 2
  rw [htwo, C_1]
  ring

end Session

end ClosedForm
