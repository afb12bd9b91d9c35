import ClosedForm.Proofs.Calculus.Polynomials
import ClosedForm.Proofs.Expansion.Rules
import ClosedForm.Proofs.Ring.Operations

/-!
# Extracting rational coefficients

A polynomial form in one symbol has the coefficients of the polynomial that it denotes
(`Polynomial.ends_ofCanonical_ofRing`). Extraction refuses exponents of a certain size, opens no powers of sums
beyond the limit on expansion (`Polynomial.Opens`), and has no products of a degree that is too large. It has
nothing else to object to: below that degree a failure means that a power is not opened.

In a polynomial form only constants are free of symbols (`PolynomialForm.contains`), so whatever
extraction takes for a coefficient is a number.
-/

open Polynomial (C X)
open scoped Polynomial

namespace ClosedForm

open ClosedForm.Expr Canonical

variable {bounds : Bounds} {name : String} {c e : Expr} {p : Polynomial}

/-! ## Symbols of polynomial forms -/

theorem Expr.Evaluated.degree_eq_zero (h : e.Evaluated) (hfree : Over (fun _ => False) e) :
    e.degree = 0 := by
  induction h with
  | constant => rfl
  | symbol => exact (over_symbol.mp hfree).elim
  | add _ ih =>
    refine Nat.le_zero.mp (degree_add_le_iff.mpr fun t ht => ?_)
    rw [ih t ht (over_add.mp hfree t ht)]
  | mul _ ih =>
    rw [degree_mul, List.sum_eq_zero_iff]
    exact List.forall_mem_map.mpr fun f hf => ih f hf (over_mul.mp hfree f hf)
  | pow n _ _ ih => rw [degree_pow, ih (over_pow.mp hfree).1, zero_mul]

/-- Terms that cancel only lower the degree. -/
theorem Expr.Evaluated.natDegree_univariate_le (h : e.Evaluated) : e.univariate.natDegree ≤ e.degree := by
  induction h with
  | constant c => rw [univariate_constant, Polynomial.natDegree_C, degree_constant]
  | symbol name => rw [univariate_symbol, Polynomial.natDegree_X, degree_symbol]
  | @add ts _ ih =>
    rw [univariate_add]
    refine (Polynomial.natDegree_list_sum_le _).trans (List.max_le_of_forall_le _ _ ?_)
    rw [List.map_map]
    exact List.forall_mem_map.mpr fun t ht => (ih t ht).trans (degree_le_of_mem_add ht)
  | @mul fs _ ih =>
    rw [univariate_mul, degree_mul]
    refine (Polynomial.natDegree_list_prod_le _).trans ?_
    rw [List.map_map]
    exact List.sum_le_sum ih
  | pow n _ _ ih =>
    rw [univariate_pow, degree_pow, mul_comm]
    exact Polynomial.natDegree_pow_le_of_le n ih

/-- A polynomial form in a symbol has the symbol, unless it is a constant. -/
theorem Canonical.PolynomialForm.contains (h : PolynomialForm bounds c) (hover : Over (· = name) c)
    (hconstant : c.isConstant = false) : c.contains name = true := by
  by_contra hfree
  refine h.degree_pos hconstant (h.evaluated.degree_eq_zero fun other hother => hfree ?_)
  rwa [← show other = name from hover other hother]

namespace Polynomial

/-! ## The steps -/

/-- The powers that extraction opens. -/
def Opens (bounds : Bounds) (base : Expr) (n : Nat) : Prop :=
  n < exponentBound ∧ (base.isAdd = true → n ≤ bounds.maxExpandExponent)

theorem ofCanonical_eq (e : Expr) : ofCanonical bounds name e =
    e.children.mapM (ofCanonical bounds name) >>= step bounds name e :=
  Expr.foldM_eq e

theorem step_add {ts : List Expr} (h : (Expr.add ts).contains name = true) (parts : List Polynomial) :
    step bounds name (.add ts) parts = .ok (parts.foldl add zero) := by
  unfold step
  rw [if_neg (by simp), if_neg (by simp [h])]
  rfl

theorem step_mul {fs : List Expr} (h : (Expr.mul fs).contains name = true) (parts : List Polynomial) :
    step bounds name (.mul fs) parts = parts.foldlM (mul bounds) (ofConstant .one) := by
  unfold step
  rw [if_neg (by simp), if_neg (by simp [h])]

theorem step_pow {base exponent : Expr} (h : (Expr.pow base exponent).contains name = true)
    (parts : List Polynomial) :
    step bounds name (.pow base exponent) parts = ofPower bounds name base exponent parts := by
  unfold step
  rw [if_neg (by simp), if_neg (by simp [h])]

theorem ofCanonical_constant (q : ℚ) : ofCanonical bounds name (.constant q) = .ok (ofConstant (.constant q)) := by
  rw [ofCanonical_eq]
  rfl

theorem naturalExponent_constant (name : String) (n : Nat) : naturalExponent name (.constant n) =
    if exponentBound ≤ n then .error (.nonPolynomial name (.hugeExponent n)) else .ok n := by
  have hneg : ¬(n : ℚ) < 0 := not_lt.mpr (Nat.cast_nonneg n)
  simp [naturalExponent, Expr.contains, recurse, constant?, Rational.isInteger, hneg]
  rfl

theorem ofPower_constant (base : Expr) (n : Nat) (parts : List Polynomial) :
    ofPower bounds name base (.constant n) parts =
      if exponentBound ≤ n then .error (.nonPolynomial name (.hugeExponent n))
      else if base = .symbol name then .ok (monomial n)
      else if bounds.maxExpandExponent < n then
        .error (.nonPolynomial name (.beyondExpansionLimit n bounds.maxExpandExponent))
      else pow bounds (parts.headD zero) n := by
  rw [ofPower, naturalExponent_constant]
  split <;> rfl

/-! ## The polynomial of a polynomial form -/

/-- A power of the expression is not opened, or else its degree is too large. -/
def Refuses (bounds : Bounds) (c : Expr) : Prop :=
  c.PowersSatisfy (Opens bounds) → exponentBound ≤ c.degree

/-- What is refused in a part is refused in the whole. -/
theorem ends_mapM_ofCanonical {es : List Expr}
    (h : ∀ e ∈ es, Ends (fun _ => Refuses bounds e)
      (fun p => e.PowersSatisfy (Opens bounds) ∧ p = ofRing e.univariate) (ofCanonical bounds name e))
    (hopens : c.PowersSatisfy (Opens bounds) → ∀ e ∈ es, e.PowersSatisfy (Opens bounds))
    (hdegree : ∀ e ∈ es, e.degree ≤ c.degree) :
    Ends (fun _ => Refuses bounds c)
      (fun parts => (∀ e ∈ es, e.PowersSatisfy (Opens bounds)) ∧ parts = (es.map univariate).map ofRing)
      (es.mapM (ofCanonical bounds name)) := by
  have hparts : Ends (fun _ => Refuses bounds c)
      (List.Forall₂ (fun e p => e.PowersSatisfy (Opens bounds) ∧ p = ofRing e.univariate) es)
      (es.mapM (ofCanonical bounds name)) :=
    .mapM fun e he => (h e he).mono fun _ hrefused hc => (hrefused (hopens hc e he)).trans (hdegree e he)
  refine hparts.imp fun parts hparts => ⟨fun e he => ?_, ?_⟩
  · obtain ⟨p, -, hp, -⟩ := exists_of_forall₂_right hparts.flip he
    exact hp
  · rw [List.map_map, ← List.map_id parts]
    exact map_eq_of_forall₂ (hparts.imp fun _ _ hp => hp.2).flip

/-- A power of the symbol is a monomial; the power of a sum is taken in the ring, where the limits allow
that. -/
theorem ends_step_pow {base : Expr} {n : Nat} (h : PolynomialForm bounds (.pow base (.constant n)))
    (hover : Over (· = name) (.pow base (.constant n))) (hopens : base.PowersSatisfy (Opens bounds))
    (parts : List Polynomial) :
    Ends (fun _ => Refuses bounds (.pow base (.constant n)))
      (fun p => (Expr.pow base (.constant n)).PowersSatisfy (Opens bounds) ∧
        p = ofRing (Expr.pow base (.constant n)).univariate)
      (step bounds name (.pow base (.constant n)) (ofRing base.univariate :: parts)) := by
  obtain ⟨_, -, -, -, hbase, hform⟩ := h.of_pow
  rw [step_pow (h.contains hover rfl), ofPower_constant, univariate_pow]
  split
  · next hbound =>
    intro h
    cases h with
    | pow hn => exact absurd hn.1 (not_lt.mpr hbound)
  next hbound =>
  cases base with
  | symbol other =>
    obtain rfl : other = name := over_symbol (p := (· = name)) |>.mp (over_pow.mp hover).1
    rw [if_pos rfl, univariate_symbol, ← monomial_eq]
    exact ⟨.pow ⟨not_le.mp hbound, fun hadd => by cases hadd⟩ hopens, rfl⟩
  | add ts =>
    rw [if_neg (by simp)]
    split
    · next hlimit =>
      intro h
      cases h with
      | pow hn => exact absurd (hn.2 rfl) (not_le.mpr hlimit)
    · next hlimit =>
      refine ((ends_pow_ofRing bounds _ n).mono fun _ hrefused _ => hrefused.trans ?_).imp fun p hp =>
        ⟨.pow ⟨not_le.mp hbound, fun _ => not_lt.mp hlimit⟩ hopens, hp⟩
      rw [degree_pow, mul_comm]
      exact Nat.mul_le_mul_right _ hform.evaluated.natDegree_univariate_le
  | _ => exact hbase.elim

/-- Extraction opens the powers that it can open, and then has the polynomial of the form in the ring. -/
theorem ends_ofCanonical_ofRing (h : PolynomialForm bounds c) (hover : Over (· = name) c) :
    Ends (fun _ => Refuses bounds c) (fun p => c.PowersSatisfy (Opens bounds) ∧ p = ofRing c.univariate)
      (ofCanonical bounds name c) := by
  have hzero : zero = ofRing 0 := by simp [zero, ofRing]
  have hone : ofConstant .one = ofRing 1 := (ofConstant_eq 1).trans (by rw [Polynomial.C_1])
  obtain ⟨hnormal, hevaluated⟩ := h
  induction hevaluated with
  | constant q =>
    rw [ofCanonical_constant, ofConstant_eq, univariate_constant]
    exact ⟨.constant q, rfl⟩
  | symbol other =>
    obtain rfl : other = name := over_symbol (p := (· = name)) |>.mp hover
    rw [ofCanonical_eq, univariate_symbol, ← pow_one (X : ℚ[X]), ← monomial_eq]
    show Ends _ _ (step bounds other (.symbol other) [])
    unfold step
    rw [if_pos rfl]
    exact ⟨.symbol other, rfl⟩
  | @add ts hts ih =>
    have hform : PolynomialForm bounds (.add ts) := ⟨hnormal, .add hts⟩
    have hparts := ends_mapM_ofCanonical (c := .add ts)
      (fun t ht => ih t ht (over_add.mp hover t ht) (hnormal.of_mem_children ht))
      (fun hopens => by cases hopens; assumption) fun t ht => degree_le_of_mem_add ht
    rw [ofCanonical_eq]
    refine hparts.bind ?_
    rintro _ ⟨hopens, rfl⟩
    rw [step_add (hform.contains hover rfl), hzero, foldl_add_ofRing, zero_add]
    exact ⟨.add hopens, by rw [univariate_add]⟩
  | @mul fs hfs ih =>
    have hform : PolynomialForm bounds (.mul fs) := ⟨hnormal, .mul hfs⟩
    have hparts := ends_mapM_ofCanonical (c := .mul fs)
      (fun f hf => ih f hf (over_mul.mp hover f hf) (hnormal.of_mem_children hf))
      (fun hopens => by cases hopens; assumption) fun f hf => degree_le_of_mem_mul hf
    rw [ofCanonical_eq]
    refine hparts.bind ?_
    rintro _ ⟨hopens, rfl⟩
    rw [step_mul (hform.contains hover rfl), hone]
    refine ((ends_foldlM_mul_ofRing bounds 1 (fs.map univariate)).mono fun _ hbound _ => ?_).imp fun p hp => ?_
    · refine hbound.trans ?_
      rw [Polynomial.natDegree_one, zero_add, List.map_map, degree_mul]
      exact List.sum_le_sum fun f hf => (hfs f hf).natDegree_univariate_le
    · rw [hp, one_mul, univariate_mul]
      exact ⟨.mul hopens, rfl⟩
  | @pow base n hconstant hinner ih =>
    have hform : PolynomialForm bounds (.pow base (.constant n)) := ⟨hnormal, .pow n hconstant hinner⟩
    obtain ⟨m, heq, hne, -, -, -⟩ := hform.of_pow
    obtain rfl : n = m := by exact_mod_cast (Expr.constant.inj heq : (n : ℚ) = m)
    have hpos : 0 < n := Nat.pos_of_ne_zero hne
    rw [ofCanonical_eq]
    show Ends _ _ ([base, .constant n].mapM (ofCanonical bounds name) >>= _)
    rw [List.mapM_cons, List.mapM_cons, List.mapM_nil, ofCanonical_constant, bind_assoc]
    have hpart := ih (over_pow.mp hover).1 (hnormal.of_mem_children (by simp [children]))
    have hrefuses (h : Refuses bounds base) : Refuses bounds (.pow base (.constant n)) := by
      intro hopens
      cases hopens with
      | pow _ hopens =>
        rw [degree_pow]
        exact (h hopens).trans (Nat.le_mul_of_pos_right _ hpos)
    refine (hpart.mono fun _ => hrefuses).bind ?_
    rintro _ ⟨hopens, rfl⟩
    exact ends_step_pow hform hover hopens _

/-! ## The polynomial of an expression -/

/-- Numbers are canonical already. -/
theorem Numeric.ensures_canonicalizeAll (hpasses : 2 ≤ bounds.maxPasses) {ts : List (Nat × Expr)}
    (h : Numeric ts) : Ensures bounds (fun _ => False) (fun rs => rs = ts) (canonicalizeAll bounds ts) := by
  induction ts with
  | nil => exact .pure rfl
  | cons t ts ih =>
    obtain ⟨⟨q, hq, ht⟩, -, hts⟩ := numeric_cons.mp h
    obtain ⟨power, d⟩ := t
    obtain rfl : d = .constant q := ht
    refine .bind (.canonicalize _) ((Reduces.constant q).ensures hpasses) ?_
    rintro _ rfl
    refine .bind (.canonicalizeAll ts) (ih hts) ?_
    rintro _ rfl
    exact .pure (if_neg (by simpa [Expr.isZero] using hq))

/-- An expression that reduces to a polynomial form in a symbol has the coefficients of the polynomial that the
form denotes, unless extraction refuses a power of the form or the degree. -/
theorem ensures_ofExpr_ofRing (hpasses : 2 ≤ bounds.maxPasses) (he : Reduces bounds e c)
    (h : PolynomialForm bounds c) (hover : Over (· = name) c) :
    Ensures bounds (fun _ => Refuses bounds c)
      (fun p => c.PowersSatisfy (Opens bounds) ∧ p = ofRing c.univariate) (ofExpr bounds e name) := by
  refine .bind (.canonicalize e) ((he.ensures hpasses).mono fun _ => False.elim) ?_
  rintro c rfl
  refine .bind (.lift _) (.lift (ends_ofCanonical_ofRing h hover)) ?_
  rintro _ ⟨hopens, rfl⟩
  refine .bind (.canonicalizeAll _)
    (((numeric_ofRing _).ensures_canonicalizeAll hpasses).mono fun _ => False.elim) ?_
  rintro _ rfl
  exact .pure ⟨hopens, rfl⟩

end Polynomial

end ClosedForm
