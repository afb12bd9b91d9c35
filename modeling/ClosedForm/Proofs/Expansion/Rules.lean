import ClosedForm.Proofs.Expansion.Forms
import ClosedForm.Proofs.Value.Canonical

/-!
# The rules on polynomial forms

The rules turn polynomial forms into polynomial forms, and always succeed where exponents are moderate. The
rule for products adds the exponents of each base, so the degrees of the factors add up
(`exists_makes_mul`), and the rule for powers multiplies them (`exists_makes_pow`).

So every polynomial expression with moderate exponents has a canonical form, whatever the memo holds,
which denotes the same polynomial and is of no larger degree (`exists_becomes`).
-/

namespace ClosedForm

open ClosedForm.Expr PowerProduct

namespace Canonical

variable {bounds : Bounds}

/-! ## Sums -/

theorem ofRests_evaluated : LinearForm.OfRests Expr.Evaluated where
  constant := .constant
  term {c gs} _ h d := by
    rw [evaluated_product_iff, evaluated_withFactor_iff] at h ⊢
    exact h

theorem ofRests_degree (d : Nat) : LinearForm.OfRests fun e => e.degree ≤ d where
  constant c := Nat.zero_le _
  term {c gs} _ h k := by
    rwa [degree_product, degrees_withFactor] at h ⊢

theorem degree_le_of_terms {e : Expr} {d : Nat} (h : ∀ t ∈ e.terms, t.degree ≤ d) :
    e.degree ≤ d := by
  cases e with
  | add ts => exact degree_add_le_iff.mpr h
  | _ => exact h _ (List.mem_singleton_self _)

theorem degree_le_of_mem_terms {e t : Expr} (ht : t ∈ e.terms) : t.degree ≤ e.degree := by
  cases e with
  | add ts => exact degree_le_of_mem_add ht
  | _ => rw [List.mem_singleton.mp ht]

/-- A multiple of a sum of polynomial forms is one, and no larger in degree than all of them. -/
theorem form_gatherList (scale : Rat) {es : List Expr} (h : ∀ e ∈ es, PolynomialForm bounds e) {d : Nat}
    (hd : ∀ e ∈ es, e.degree ≤ d) :
    PolynomialForm bounds (LinearForm.gatherList scale .zero es).toExpr ∧
      (LinearForm.gatherList scale .zero es).toExpr.degree ≤ d := by
  have hnormal : ∀ e ∈ es, Normal bounds e := fun e he => (h e he).normal
  refine ⟨⟨(LinearForm.normal_zero.gatherList scale es hnormal).toExpr, .of_terms ?_⟩,
    degree_le_of_terms ?_⟩
  · exact LinearForm.forall_terms_gatherList ofRests_evaluated scale hnormal
      fun e he t ht => ((h e he).of_mem_terms ht).evaluated
  · exact LinearForm.forall_terms_gatherList (ofRests_degree d) scale hnormal
      fun e he t ht => (degree_le_of_mem_terms ht).trans (hd e he)

theorem form_add {es : List Expr} (h : ∀ e ∈ es, PolynomialForm bounds e) :
    PolynomialForm bounds (add es) ∧ (add es).degree ≤ (Expr.add es).degree :=
  form_gatherList 1 h (degree_add_le_iff.mp le_rfl)

/-! ## Products -/

/-- The natural number that a constant is. -/
def natValue (e : Expr) : Nat :=
  (constantValue e).num.toNat

@[simp] theorem natValue_constant (n : Nat) : natValue (.constant n) = n := by
  simp [natValue, constantValue, constant?]

/-- The natural exponents of a base come to their sum. -/
theorem addExponents_constants {es : List Expr} (hnil : es ≠ [])
    (h : ∀ e ∈ es, ∃ n : Nat, e = .constant n) :
    addExponents es = .constant ((es.map natValue).sum : Nat) := by
  have hsum : (es.map constantValue).sum = ((es.map natValue).sum : Nat) := by
    clear hnil
    induction es with
    | nil => simp
    | cons e es ih =>
      obtain ⟨n, rfl⟩ := h e (by simp)
      simp [ih fun f hf => h f (by simp [hf]), constantValue, constant?]
  have hconstant : ∀ e ∈ es, e.isConstant = true := by
    intro e he
    obtain ⟨n, rfl⟩ := h e he
    rfl
  rw [← hsum]
  cases es with
  | nil => exact absurd rfl hnil
  | cons e rest =>
    cases rest with
    | nil =>
      obtain ⟨n, rfl⟩ := h e (by simp)
      simp [addExponents, constantValue, constant?]
    | cons => exact add_constants hconstant

/-- The powers that a power product stands for, if its exponents are natural numbers. -/
def raised (powers : List (Expr × List Expr)) : List Expr :=
  powers.map fun p => raise p.1 (p.2.map natValue).sum

theorem degrees_addPower (base exponent : Expr) (powers : List (Expr × List Expr)) :
    ((raised (addPower base exponent powers)).map degree).sum =
      ((raised powers).map degree).sum + base.degree * natValue exponent := by
  induction powers with
  | nil => simp [raised, addPower]
  | cons p powers ih =>
    rw [addPower]
    split
    · next heq =>
      subst heq
      simp [raised, mul_add]
      omega
    · simp only [raised, List.map_cons, List.sum_cons] at ih ⊢
      rw [ih, add_assoc]

/-- Every factor adds its degree to the powers. -/
theorem degrees_foldl {fs : List Expr} (h : ∀ f ∈ fs, PolynomialForm bounds f ∧ f.isMul = false)
    (product : PowerProduct) : ((raised (fs.foldl addFactor product).powers).map degree).sum =
      ((raised product.powers).map degree).sum + (fs.map degree).sum := by
  induction fs generalizing product with
  | nil => simp
  | cons f fs ih =>
    rw [List.foldl_cons, ih fun g hg => h g (by simp [hg])]
    obtain ⟨hform, hmul⟩ := h f (by simp)
    cases hconstant : f.isConstant with
    | true =>
      obtain ⟨c, rfl⟩ := isConstant_iff.mp hconstant
      rw [addFactor_constant]
      simp
    | false =>
      obtain ⟨n, -, -, -, hexponent, hf⟩ := hform.exists_raise hconstant hmul
      have hdegree : f.degree = (factorBase f).degree * n := by
        rw [← degree_raise, ← hf]
      rw [addFactor_of_not_isConstant product hconstant]
      dsimp only
      rw [degrees_addPower, hexponent, natValue_constant, List.map_cons, List.sum_cons, hdegree,
        add_assoc]

/-- Powers of distinct bases, which the rule for products puts together. -/
structure Powers (bounds : Bounds) (ps : List Expr) : Prop where
  form : ∀ p ∈ ps, PolynomialForm bounds p
  not_constant : ∀ p ∈ ps, p.isConstant = false
  not_mul : ∀ p ∈ ps, p.isMul = false
  bases : (ps.map factorBase).Nodup

/-- A coefficient and powers are assembled to a polynomial form of no larger degree. -/
theorem Powers.form_assemble {ps : List Expr} (h : Powers bounds ps) (c : Rat) :
    PolynomialForm bounds (assemble c ps) ∧ (assemble c ps).degree ≤ (ps.map degree).sum := by
  have hnormal := normal_assemble c (fun p hp => (h.form p hp).normal) h.not_constant h.not_mul h.bases
  by_cases hc : c = 0
  · unfold assemble
    rw [if_pos hc]
    exact ⟨.constant 0, Nat.zero_le _⟩
  by_cases hsum : ∃ ts, ps = [.add ts]
  · obtain ⟨ts, rfl⟩ := hsum
    have hadd := h.form (.add ts) (by simp)
    have hle := degree_add_le_iff.mp (le_refl (Expr.add ts).degree)
    unfold assemble at hnormal ⊢
    rw [if_neg hc] at hnormal ⊢
    dsimp only at hnormal ⊢
    split
    · exact ⟨hadd, by simp⟩
    · have hform := form_gatherList c (fun t ht => hadd.of_mem_terms ht) hle
      rwa [List.map_singleton, List.sum_singleton]
  by_cases hnil : ps = []
  · rw [hnil, assemble_nil hc] at *
    rw [product_withFactor_nil]
    exact ⟨.constant c, Nat.zero_le _⟩
  · have hshape := factorShape_sort hnil h.not_constant h.not_mul h.bases (not_exists.mp hsum)
    have hdegree : ((Expr.sort ps).map degree).sum = (ps.map degree).sum :=
      ((sort_perm ps).map degree).sum_eq
    rw [assemble_congr (sort_perm ps).symm, assemble_of_shape hc hshape] at hnormal ⊢
    refine ⟨⟨hnormal, ?_⟩, ?_⟩
    · rw [evaluated_product_iff, evaluated_withFactor_iff]
      exact fun p hp => (h.form p (mem_sort.mp hp)).evaluated
    · rw [degree_product, degrees_withFactor, hdegree]

/-- A base with natural exponents that are not all zero. -/
structure Entry (bounds : Bounds) (p : Expr × List Expr) : Prop where
  base : IsBase p.1
  form : PolynomialForm bounds p.1
  exponents : ∀ e ∈ p.2, ∃ n : Nat, e = .constant n
  ne_zero : (p.2.map natValue).sum ≠ 0

theorem opened_of_mem {fs : List Expr} (h : ∀ f ∈ fs, PolynomialForm bounds f) :
    ∀ f ∈ factorsList fs, PolynomialForm bounds f ∧ f.isMul = false := by
  intro f hf
  obtain ⟨e, he, hf⟩ := mem_factorsList.mp hf
  exact ⟨(h e he).of_mem_factors hf, isMul_of_mem_factors hf⟩

theorem entry_of_mem {fs : List Expr} (h : ∀ f ∈ fs, PolynomialForm bounds f)
    {p : Expr × List Expr} (hp : p ∈ (ofFactors fs).powers) : Entry bounds p := by
  have hcollected := collected_ofFactors fs
  have hexponent : ∀ e ∈ p.2, ∃ n : Nat, n ≠ 0 ∧ IsBase p.1 ∧ PolynomialForm bounds p.1 ∧
      e = .constant n := by
    intro e he
    obtain ⟨f, hf, hconstant, hbase, hexponent⟩ := hcollected.exists_factor p hp e he
    obtain ⟨hform, hmul⟩ := opened_of_mem h f hf
    obtain ⟨n, hn, hisBase, hbaseForm, heq, -⟩ := hform.exists_raise hconstant hmul
    rw [hbase] at hisBase hbaseForm
    exact ⟨n, hn, hisBase, hbaseForm, hexponent.symm.trans heq⟩
  obtain ⟨e, he⟩ := List.exists_mem_of_ne_nil _ (hcollected.ne_nil p hp)
  obtain ⟨n, hn, hbase, hform, rfl⟩ := hexponent e he
  refine ⟨hbase, hform, fun e he => ?_, fun hzero => hn ?_⟩
  · obtain ⟨m, -, -, -, heq⟩ := hexponent e he
    exact ⟨m, heq⟩
  · have hle := List.single_le_sum (fun _ _ => Nat.zero_le _) _ (List.mem_map_of_mem (f := natValue) he)
    rw [natValue_constant] at hle
    omega

theorem bases_raised {powers : List (Expr × List Expr)} (h : ∀ p ∈ powers, Entry bounds p) :
    (raised powers).map factorBase = powers.map Prod.fst := by
  rw [raised, List.map_map]
  exact List.map_congr_left fun p hp => (h p hp).base.factorBase_raise _

theorem powers_raised {powers : List (Expr × List Expr)} (h : ∀ p ∈ powers, Entry bounds p)
    (hnodup : (powers.map Prod.fst).Nodup) : Powers bounds (raised powers) where
  form := List.forall_mem_map.mpr fun p hp => (h p hp).base.form_raise (h p hp).form (h p hp).ne_zero
  not_constant := List.forall_mem_map.mpr fun p hp => (h p hp).base.isConstant_raise _
  not_mul := List.forall_mem_map.mpr fun p hp => (h p hp).base.isMul_raise _
  bases := bases_raised h ▸ hnodup

/-- The rule for products assembles the powers of the bases of the factors. -/
theorem multiply_eq_assemble {fs : List Expr} (h : ∀ f ∈ fs, PolynomialForm bounds f) :
    multiply bounds fs =
      .ok (assemble (ofFactors fs).coefficient (raised (ofFactors fs).powers)) := by
  have hcollected := collected_ofFactors fs
  have hentry : ∀ p ∈ (ofFactors fs).powers, Entry bounds p := fun p hp => entry_of_mem h hp
  have hpowers := powers_raised hentry hcollected.nodup
  have hrule : ((ofFactors fs).powers.mapM fun p => power bounds p.1 (addExponents p.2)) =
      .ok (raised (ofFactors fs).powers) := by
    rw [mapM_eq_ok, raised, List.forall₂_map_right_iff, List.forall₂_same]
    intro p hp
    rw [addExponents_constants (hcollected.ne_nil p hp) (hentry p hp).exponents,
      (hentry p hp).base.power (hentry p hp).ne_zero]
  rw [multiply_eq]
  unfold multiplyWith
  dsimp only
  rw [hrule]
  split
  · next hzero =>
    unfold assemble
    rw [if_pos hzero]
    rfl
  · show Except.ok (assemble (_ * constantPart (raised _)) (proper (raised _))) = _
    rw [constantPart_eq_one hpowers.not_constant, mul_one, proper_of_not_constant hpowers.not_constant]

/-! ## Monomials -/

/-- The factors of a monomial are constants and powers of symbols. -/
def IsMonomial (e : Expr) : Prop :=
  ∀ f ∈ e.factors, f.isConstant = false → ∃ name, factorBase f = .symbol name

theorem isMonomial_constant (c : Rat) : IsMonomial (.constant c) := by
  intro f hf hconstant
  rw [factors_of_not_isMul rfl, List.mem_singleton] at hf
  rw [hf] at hconstant
  cases hconstant

theorem isMonomial_symbol (name : String) : IsMonomial (.symbol name) := by
  intro f hf _
  rw [factors_of_not_isMul rfl, List.mem_singleton] at hf
  exact ⟨name, by rw [hf]; rfl⟩

theorem isMonomial_raise (name : String) (n : Nat) : IsMonomial (raise (.symbol name) n) := by
  have hbase : IsBase (.symbol name) := trivial
  intro f hf _
  rw [factors_of_not_isMul (hbase.isMul_raise n), List.mem_singleton] at hf
  exact ⟨name, by rw [hf, hbase.factorBase_raise]⟩

/-- A term is a monomial if its factors have symbols as bases. -/
theorem isMonomial_term_iff {c : Rat} {gs : List Expr} (h : FactorShape gs) :
    IsMonomial (Expr.product (withFactor c gs)) ↔ ∀ g ∈ gs, ∃ name, factorBase g = .symbol name := by
  have hfactors : (Expr.product (withFactor c gs)).factors = withFactor c gs := by
    rw [factors_product _ (withFactor_ne_nil h c),
      factorsList_of_not_isMul fun f hf => h.isMul_of_mem_withFactor hf]
  unfold IsMonomial
  rw [hfactors]
  refine ⟨fun hall g hg => hall g (mem_withFactor_of_mem hg c) (h.not_constant g hg),
    fun hall f hf hconstant => ?_⟩
  rcases mem_withFactor hf with rfl | hg
  · cases hconstant
  · exact hall f hg

theorem ofRests_isMonomial : LinearForm.OfRests IsMonomial where
  constant := isMonomial_constant
  term hshape h _ := (isMonomial_term_iff hshape).mpr ((isMonomial_term_iff hshape).mp h)

theorem IsMonomial.isAdd {e : Expr} (h : IsMonomial e) : e.isAdd = false := by
  cases e with
  | add ts =>
    obtain ⟨name, hname⟩ := h (.add ts) (by rw [factors_of_not_isMul rfl]; simp) rfl
    cases hname
  | _ => rfl

theorem Powers.isMonomial_assemble {ps : List Expr} (h : Powers bounds ps)
    (hps : ∀ p ∈ ps, ∃ name, factorBase p = .symbol name) (c : Rat) : IsMonomial (assemble c ps) := by
  by_cases hc : c = 0
  · unfold assemble
    rw [if_pos hc]
    exact isMonomial_constant 0
  by_cases hnil : ps = []
  · rw [hnil, assemble_nil hc, product_withFactor_nil]
    exact isMonomial_constant c
  have hsum : ∀ ts, ps ≠ [.add ts] := by
    rintro ts rfl
    obtain ⟨name, hname⟩ := hps (.add ts) (by simp)
    cases hname
  have hshape := factorShape_sort hnil h.not_constant h.not_mul h.bases hsum
  rw [assemble_congr (sort_perm ps).symm, assemble_of_shape hc hshape, isMonomial_term_iff hshape]
  exact fun p hp => hps p (mem_sort.mp hp)

/-! ## Nodes over polynomial forms -/

/-- The rule for a node makes a polynomial form of it, of no larger degree. -/
structure Makes (bounds : Bounds) (e r : Expr) : Prop where
  rule : simplifyNode bounds e = .ok r
  form : PolynomialForm bounds r
  degree_le : r.degree ≤ e.degree

theorem makes_add {es : List Expr} (h : ∀ e ∈ es, PolynomialForm bounds e) :
    Makes bounds (.add es) (add es) :=
  ⟨rfl, (form_add h).1, (form_add h).2⟩

/-- A product of polynomial forms is one, and a product of monomials is a monomial. -/
theorem exists_makes_mul {fs : List Expr} (h : ∀ f ∈ fs, PolynomialForm bounds f) :
    ∃ r, Makes bounds (.mul fs) r ∧ ((∀ f ∈ fs, IsMonomial f) → IsMonomial r) := by
  have hentry : ∀ p ∈ (ofFactors fs).powers, Entry bounds p := fun p hp => entry_of_mem h hp
  have hpowers := powers_raised hentry (collected_ofFactors fs).nodup
  have hdegree : ((raised (ofFactors fs).powers).map degree).sum = (fs.map degree).sum := by
    rw [ofFactors, degrees_foldl (opened_of_mem h), degrees_factorsList]
    simp [raised, PowerProduct.one]
  refine ⟨_, ⟨multiply_eq_assemble h, (hpowers.form_assemble _).1, ?_⟩, fun hmonomial => ?_⟩
  · rw [degree_mul, ← hdegree]
    exact (hpowers.form_assemble _).2
  · refine hpowers.isMonomial_assemble (fun p hp => ?_) _
    have hbase : factorBase p ∈ (ofFactors fs).powers.map Prod.fst :=
      bases_raised hentry ▸ List.mem_map_of_mem hp
    obtain ⟨q, hq, heq⟩ := List.mem_map.mp hbase
    obtain ⟨f, hf, hconstant, hbase⟩ := exists_factor_of_mem_powers hq
    obtain ⟨e, he, hf⟩ := mem_factorsList.mp hf
    obtain ⟨name, hname⟩ := hmonomial e he f hf hconstant
    exact ⟨name, heq.symm.trans (hbase.trans hname)⟩

theorem power_constant (hrange : bounds.InRange) (c : Rat) {n : Nat}
    (hn : n ≤ bounds.maxExactExponent) :
    power bounds (.constant c) (.constant n) = .ok (.constant (c ^ n)) := by
  have hpower := power_constant_int hrange c (n := n) (by simpa using hn)
  rwa [if_neg (by omega), zpow_natCast, Int.cast_natCast] at hpower

/-- The rule for powers looks into the base where the exponent is neither `0` nor `1`. -/
theorem powerStep_nat {P : Expr → Expr → Except Error Expr} {base : Expr} {n : Nat} (hzero : n ≠ 0)
    (hone : n ≠ 1) (hbase : base.isConstant = false) : powerStep bounds P base (.constant n) =
      match base with
      | .pow inner e => multiplyWith P [e, .constant n] >>= P inner
      | .mul factors => factors.mapM (fun f => P f (.constant n)) >>= multiplyWith P
      | .function .imaginaryUnit _ => return imaginaryPower n
      | _ => return .pow base (.constant n) := by
  have hint : Rational.isInteger (n : Rat) = true := by simp [Rational.isInteger]
  have hnotOne : base.isOne = false := by
    cases base <;> first | rfl | cases hbase
  unfold powerStep
  rw [if_neg (by simpa [isZero, hnotOne] using hzero), if_neg (by simpa [isOne] using hone)]
  cases base with
  | constant => cases hbase
  | function f => cases f <;> simp [hint]
  | _ => simp [hint]

/-- A power of a constant, a symbol, a sum or a power. -/
theorem exists_power_of_not_mul (hrange : bounds.InRange) {b : Expr} (h : PolynomialForm bounds b)
    (hmul : b.isMul = false) {n : Nat} (hn : n ≤ bounds.maxExactExponent) (hzero : n ≠ 0) :
    ∃ r, power bounds b (.constant n) = .ok r ∧ PolynomialForm bounds r ∧ r.degree = b.degree * n ∧
      (IsMonomial b → IsMonomial r) := by
  cases hconstant : b.isConstant with
  | true =>
    obtain ⟨c, rfl⟩ := isConstant_iff.mp hconstant
    exact ⟨_, power_constant hrange c hn, .constant _, by simp, fun _ => isMonomial_constant _⟩
  | false =>
    obtain ⟨m, hm, hbase, hform, -, hb⟩ := h.exists_raise hconstant hmul
    have hpower : power bounds b (.constant n) = .ok (raise (factorBase b) (m * n)) := by
      by_cases hone : n = 1
      · rw [hone, mul_one, ← hb, constant_natCast_one, power_one]
      by_cases hraised : m = 1
      · rw [hraised, raise_one] at hb
        rw [← hb] at hbase
        rw [hraised, one_mul, ← hb]
        exact hbase.power hzero
      · rw [raise_of_ne hraised] at hb
        rw [hb, power_eq, powerStep_nat hzero hone rfl]
        have hexponents : multiplyWith (power bounds) [.constant m, .constant n] =
            .ok (.constant ((m * n : Nat) : Rat)) := by
          rw [← multiply_eq, multiply_constants]
          push_cast
          rfl
        show multiplyWith _ [.constant m, .constant n] >>= power bounds _ = _
        rw [hexponents]
        exact hbase.power (mul_ne_zero hm hzero)
    refine ⟨_, hpower, hbase.form_raise hform (mul_ne_zero hm hzero), ?_, fun hmonomial => ?_⟩
    · have hdegree : b.degree = (factorBase b).degree * m := by rw [← degree_raise, ← hb]
      rw [degree_raise, hdegree, mul_assoc]
    · obtain ⟨name, hname⟩ := hmonomial b (by rw [factors_of_not_isMul hmul]; simp) hconstant
      rw [hname]
      exact isMonomial_raise name _

theorem degrees_powers {fs qs : List Expr} {n : Nat}
    (h : List.Forall₂ (fun f q => q.degree = f.degree * n) fs qs) :
    (qs.map degree).sum = (fs.map degree).sum * n := by
  induction h with
  | nil => simp
  | cons hfirst _ ih => rw [List.map_cons, List.sum_cons, hfirst, ih, List.map_cons, List.sum_cons, add_mul]

/-- A natural power of a polynomial form is one, and a power of a monomial is a monomial. -/
theorem exists_makes_pow (hrange : bounds.InRange) {b : Expr} (h : PolynomialForm bounds b) {n : Nat}
    (hn : n ≤ bounds.maxExactExponent) :
    ∃ r, Makes bounds (.pow b (.constant n)) r ∧ (IsMonomial b → IsMonomial r) := by
  by_cases hzero : n = 0
  · rw [hzero, constant_natCast_zero]
    exact ⟨.one, ⟨power_zero b, .constant 1, Nat.zero_le _⟩, fun _ => isMonomial_constant 1⟩
  by_cases hone : n = 1
  · refine ⟨b, ⟨?_, h, ?_⟩, id⟩
    · rw [hone, constant_natCast_one]
      exact power_one b
    · rw [degree_pow, hone, mul_one]
  cases hmul : b.isMul with
  | false =>
    obtain ⟨r, hrule, hform, hdegree, hmonomial⟩ := exists_power_of_not_mul hrange h hmul hn hzero
    exact ⟨r, ⟨hrule, hform, by rw [hdegree, degree_pow]⟩, hmonomial⟩
  | true =>
    cases b with
    | mul fs =>
      obtain ⟨qs, hqs, hpowers⟩ := exists_mapM_eq_ok fun f hf =>
        exists_power_of_not_mul hrange (h.of_mem_mul f hf) (h.normal.isMul_of_mem_mul hf) hn hzero
      have hforms : ∀ q ∈ qs, PolynomialForm bounds q := by
        intro q hq
        obtain ⟨f, -, hform, -⟩ := exists_of_forall₂_right hpowers hq
        exact hform
      have hdegrees : (qs.map degree).sum = (Expr.mul fs).degree * n := by
        rw [degree_mul]
        exact degrees_powers (hpowers.imp fun _ _ hpower => hpower.2.1)
      obtain ⟨r, hr, hmonomial⟩ := exists_makes_mul hforms
      refine ⟨r, ⟨?_, hr.form, ?_⟩, fun hb => hmonomial fun q hq => ?_⟩
      · show power bounds _ _ = _
        rw [power_eq, powerStep_nat hzero hone rfl]
        show fs.mapM _ >>= _ = _
        rw [hqs, ← hr.rule]
        exact (multiply_eq qs).symm
      · rw [degree_pow, ← hdegrees, ← degree_mul]
        exact hr.degree_le
      · obtain ⟨f, hf, -, -, hpower⟩ := exists_of_forall₂_right hpowers hq
        refine hpower fun g hg => hb g ?_
        rw [factors_mul, mem_factorsList]
        exact ⟨f, hf, hg⟩
    | _ => cases hmul

/-! ## Polynomials -/

/-- What the rule makes of a polynomial node denotes the same polynomial. -/
theorem Makes.polynomial_eq {e r : Expr} (h : Makes bounds e r) (he : e.IsPolynomial) :
    r.polynomial = e.polynomial := by
  refine he.polynomial_eq h.form.evaluated.isPolynomial fun σ x hx => ?_
  have hyields : Yields _ _ bounds _ x := yields_simplifyNode hx
  rwa [h.rule] at hyields

/-- What the rules make of a polynomial expression in one pass. -/
structure Becomes (bounds : Bounds) (e c : Expr) : Prop where
  reduces : Reduces bounds e c
  form : PolynomialForm bounds c
  degree_le : c.degree ≤ e.degree
  polynomial_eq : c.polynomial = e.polynomial

namespace Becomes

theorem leaf {e : Expr} (h : PolynomialForm bounds e) : Becomes bounds e e :=
  ⟨h.normal.reduces, h, le_rfl, rfl⟩

variable {es cs : List Expr} (h : List.Forall₂ (Becomes bounds) es cs)
include h

theorem forms : ∀ c ∈ cs, PolynomialForm bounds c := by
  intro c hc
  obtain ⟨e, -, hbecomes⟩ := exists_of_forall₂_right h hc
  exact hbecomes.form

theorem polynomials : cs.map polynomial = es.map polynomial := by
  induction h with
  | nil => rfl
  | cons hfirst _ ih => rw [List.map_cons, List.map_cons, hfirst.polynomial_eq, ih]

theorem add : Becomes bounds (.add es) (Canonical.add cs) := by
  have hmakes := makes_add (forms h)
  refine ⟨.add (h.imp fun _ _ hbecomes => hbecomes.reduces), hmakes.form, hmakes.degree_le.trans ?_, ?_⟩
  · rw [degree_add_le_iff]
    intro c hc
    obtain ⟨e, he, hbecomes⟩ := exists_of_forall₂_right h hc
    exact hbecomes.degree_le.trans (degree_add_le_iff.mp le_rfl e he)
  · have hpolynomial : (Expr.add cs).IsPolynomial :=
      .add fun c hc => (forms h c hc).evaluated.isPolynomial
    rw [hmakes.polynomial_eq hpolynomial, polynomial_add, polynomial_add, polynomials h]

theorem exists_mul : ∃ c, Becomes bounds (.mul es) c ∧ ((∀ c ∈ cs, IsMonomial c) → IsMonomial c) := by
  obtain ⟨c, hmakes, hmonomial⟩ := exists_makes_mul (forms h)
  refine ⟨c, ⟨.mul (h.imp fun _ _ hbecomes => hbecomes.reduces) hmakes.rule hmakes.form.normal, hmakes.form,
    hmakes.degree_le.trans ?_, ?_⟩, hmonomial⟩
  · have hdegrees : List.Forall₂ (· ≤ ·) (cs.map degree) (es.map degree) := by
      rw [List.forall₂_map_left_iff, List.forall₂_map_right_iff]
      exact h.flip.imp fun _ _ hbecomes => hbecomes.degree_le
    rw [degree_mul, degree_mul]
    exact hdegrees.sum_le_sum
  · have hpolynomial : (Expr.mul cs).IsPolynomial :=
      .mul fun c hc => (forms h c hc).evaluated.isPolynomial
    rw [hmakes.polynomial_eq hpolynomial, polynomial_mul, polynomial_mul, polynomials h]

omit h in
theorem exists_pow (hrange : bounds.InRange) {b c : Expr} (h : Becomes bounds b c) {n : Nat}
    (hn : n ≤ bounds.maxExactExponent) : ∃ r, Becomes bounds (.pow b (.constant n)) r := by
  obtain ⟨r, hmakes, -⟩ := exists_makes_pow hrange h.form hn
  refine ⟨r, .pow h.reduces (Normal.constant _).reduces hmakes.rule hmakes.form.normal, hmakes.form,
    hmakes.degree_le.trans ?_, ?_⟩
  · rw [degree_pow, degree_pow]
    exact Nat.mul_le_mul_right n h.degree_le
  · rw [hmakes.polynomial_eq (.pow n h.form.evaluated.isPolynomial), polynomial_pow, polynomial_pow,
      h.polynomial_eq]

omit h in
/-- The powers of a symbol are monomials, whatever the exponent is. -/
theorem exists_symbol_pow (bounds : Bounds) (name : String) (n : Nat) :
    ∃ c, Becomes bounds (.pow (.symbol name) (.constant n)) c ∧ IsMonomial c := by
  by_cases hn : n = 0
  · rw [hn, constant_natCast_zero]
    refine ⟨.one, ⟨.pow (Normal.symbol name).reduces (Normal.constant 0).reduces (power_zero _)
      (Normal.constant 1), .constant 1, Nat.zero_le _, ?_⟩, isMonomial_constant 1⟩
    have hpower := polynomial_pow (.symbol name) 0
    rw [constant_natCast_zero, pow_zero] at hpower
    rw [hpower]
    exact MvPolynomial.C_1
  · have hbase : IsBase (.symbol name) := trivial
    have hform : PolynomialForm bounds (raise (.symbol name) n) := hbase.form_raise (.symbol name) hn
    exact ⟨_, ⟨.pow (Normal.symbol name).reduces (Normal.constant _).reduces (hbase.power hn) hform.normal,
      hform, by rw [degree_raise, degree_pow], by rw [polynomial_raise, polynomial_pow]⟩,
      isMonomial_raise name n⟩

end Becomes

/-- The canonical form of a polynomial expression with moderate exponents. -/
theorem exists_becomes (hrange : bounds.InRange) {e : Expr}
    (h : e.PowersSatisfy fun _ n => n ≤ bounds.maxExactExponent) : ∃ c, Becomes bounds e c := by
  induction h with
  | constant c => exact ⟨_, .leaf (.constant c)⟩
  | symbol name => exact ⟨_, .leaf (.symbol name)⟩
  | add _ ih =>
    obtain ⟨cs, hcs⟩ := exists_forall₂ ih
    exact ⟨_, .add hcs⟩
  | mul _ ih =>
    obtain ⟨cs, hcs⟩ := exists_forall₂ ih
    obtain ⟨c, hc, -⟩ := Becomes.exists_mul hcs
    exact ⟨c, hc⟩
  | pow hn _ ih =>
    obtain ⟨c, hc⟩ := ih
    exact hc.exists_pow hrange hn

end Canonical

end ClosedForm
