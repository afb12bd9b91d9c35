import ClosedForm.Proofs.Normal.Rules
import ClosedForm.Proofs.Weight.Powers

/-!
# Rules that keep the weight give normal expressions

A rule that is applied to normal children and does not lower the weight has done no more than
collect, and what it gives is normal (`normal_of_weight_power`, `normal_of_weight_multiply`). The
cases where something else happens cost weight: a power is opened only at the price of the
constant that it paid for its exponent, and coefficients that come out of a power of a constant
are paid for by the power.
-/

namespace ClosedForm.Canonical

open ClosedForm.Expr

variable {bounds : Bounds}

/-! ## Normal factors -/

theorem normal_of_mem_factors {e f : Expr} (he : Normal bounds e) (hf : f ∈ e.factors) :
    Normal bounds f :=
  holds_of_mem_factors (fun _ hmul _ hg => hmul.of_mem_children hg) he hf

theorem normal_factorBase {f : Expr} (h : Normal bounds f) : Normal bounds (factorBase f) := by
  cases h with
  | pow hbase => exact hbase
  | constant c => exact .constant c
  | symbol name => exact .symbol name
  | add hts h => exact .add hts h
  | mul hc hgs h hlength => exact .mul hc hgs h hlength
  | imaginaryUnit => exact .imaginaryUnit
  | call hargument h => exact .call hargument h

theorem normal_factorExponent {f : Expr} (h : Normal bounds f) :
    Normal bounds (factorExponent f) := by
  cases h with
  | pow _ hexponent => exact hexponent
  | _ => exact .constant 1

/-- The exponent comes from a normal factor with the base. -/
def FromNormal (bounds : Bounds) (base exponent : Expr) : Prop :=
  ∃ f, Normal bounds f ∧ f.isConstant = false ∧ f.isMul = false ∧ factorBase f = base ∧
    factorExponent f = exponent

theorem FromNormal.normal_base {base exponent : Expr} (h : FromNormal bounds base exponent) :
    Normal bounds base := by
  obtain ⟨f, hf, -, -, rfl, -⟩ := h
  exact normal_factorBase hf

/-- The expression is a power or a product. -/
def IsNested (e : Expr) : Prop :=
  (∃ inner exponent, e = .pow inner exponent) ∨ ∃ fs, e = .mul fs

/-- A power of a power or of a product has an exponent that is no integer. -/
theorem FromNormal.of_isNested {base exponent : Expr} (h : FromNormal bounds base exponent)
    (hbase : IsNested base) : exponent.isIntegerConstant = false := by
  obtain ⟨f, hf, -, hmul, hfbase, hfexponent⟩ := h
  have hopens : Opens base ∧ base.isConstant = false := by
    rcases hbase with ⟨inner, e, rfl⟩ | ⟨fs, rfl⟩ <;> exact ⟨trivial, rfl⟩
  cases hf with
  | pow _ _ hshape =>
    have hb : _ = base := hfbase
    have he : _ = exponent := hfexponent
    subst hb he
    cases hshape with
    | inert hinert =>
      cases hint : isIntegerConstant _ with
      | false => rfl
      | true =>
        obtain ⟨n, heq, hn⟩ := isIntegerConstant_iff.mp hint
        exact absurd hopens.1 (hinert.not_opens n heq hn)
    | kept => cases hopens.2
  | mul => cases hmul
  | _ =>
    have hb : _ = base := hfbase
    rcases hbase with ⟨inner, e, heq⟩ | ⟨fs, heq⟩ <;> rw [← hb] at heq <;> cases heq

/-- A power of a constant does not have the exponent `1`. -/
theorem FromNormal.ne_one {b : Rat} {exponent : Expr}
    (h : FromNormal bounds (.constant b) exponent) : exponent ≠ .one := by
  rintro rfl
  obtain ⟨f, hf, hconstant, -, hfbase, hfexponent⟩ := h
  cases hf with
  | pow _ _ hshape =>
    have he : _ = Expr.one := hfexponent
    cases hshape with
    | inert hinert => exact hinert.exponent_ne_one he
    | kept _ _ hone =>
      exact hone (Expr.constant.inj he)
  | constant => cases hconstant
  | _ => cases hfbase

/-- Exponents of a power or a product weigh more one by one than their sum. -/
theorem two_mul_weight_lt {base : Expr} {es : List Expr} (hlength : 2 ≤ es.length)
    (hes : ∀ e ∈ es, FromNormal bounds base e)
    (hbase : IsNested base) : 2 * weight bounds base < exponentsWeight bounds base es := by
  have hconstant : base.isConstant = false := by
    rcases hbase with ⟨inner, e, rfl⟩ | ⟨fs, rfl⟩ <;> rfl
  have hall : ∀ e ∈ es, 2 * weight bounds base + 6 ≤ factorWeight bounds base e := by
    intro e he
    have hnot := (hes e he).of_isNested hbase
    rw [factorWeight_of_ne_one bounds (ne_one_of_not_isIntegerConstant hnot),
      weight_pow_plain bounds hnot fun _ => hconstant]
    omega
  have hle := le_exponentsWeight bounds hall
  have hmul := Nat.mul_le_mul_right (2 * weight bounds base + 6) hlength
  omega

/-! ## Collecting without loss -/

/-- A normal expression that can stand in a product for the factors with a base: a constant, or a
factor with this base. -/
structure Fits (bounds : Bounds) (base p : Expr) : Prop where
  normal : Normal bounds p
  factor : p.isConstant = true ∨ p.isMul = false ∧ factorBase p = base

theorem fits_constant (base : Expr) (c : Rat) : Fits bounds base (.constant c) :=
  ⟨.constant c, .inl rfl⟩

theorem fits_base {base : Expr} (h : Normal bounds base) (hplain : ¬ IsNested base) :
    Fits bounds base base := by
  refine ⟨h, .inr ⟨?_, ?_⟩⟩
  · cases base with
    | mul fs => exact absurd (.inr ⟨fs, rfl⟩) hplain
    | _ => rfl
  · cases base with
    | pow inner exponent => exact absurd (.inl ⟨inner, exponent, rfl⟩) hplain
    | _ => rfl

theorem fits_pow {base exponent : Expr} (hbase : Normal bounds base)
    (hexponent : Normal bounds exponent) (h : PowerShape bounds base exponent) :
    Fits bounds base (.pow base exponent) :=
  ⟨.pow hbase hexponent h, .inr ⟨rfl, rfl⟩⟩

/-- The power of a constant to collected exponents fits if no weight is lost. -/
theorem fits_collect_constant {b q : Rat} {es : List Expr} {p : Expr} (hlength : 2 ≤ es.length)
    (hes : ∀ e ∈ es, FromNormal bounds (.constant b) e) (hsum : add es = .constant q)
    (hb : b ≠ 1) (hzero : q ≠ 0) (hone : q ≠ 1) (h : ConstantForm bounds b q p)
    (htight : weight bounds p = exponentsWeight bounds (.constant b) es) :
    Fits bounds (.constant b) p := by
  have hkept (hp : p = .pow (.constant b) (.constant q)) (hkept : Kept bounds b q) :
      Fits bounds (.constant b) p := by
    rw [hp]
    exact fits_pow (.constant b) (.constant q) (.kept hb hzero hone hkept)
  cases hq : Rational.isInteger q with
  | true =>
    rcases weight_constantForm bounds h with ⟨c, rfl, -⟩ | ⟨hp, hk⟩ | ⟨hfalse, -⟩
    · exact fits_constant _ c
    · exact hkept hp hk
    · rw [hq] at hfalse
      cases hfalse
  | false =>
    have hnot : .one ∉ es := fun hmem => (hes .one hmem).ne_one rfl
    rcases (h.weight_collect bounds hb hlength hsum hq).2 hnot with hc | ⟨hp, hk⟩ | hlt
    · obtain ⟨c, rfl⟩ := isConstant_iff.mp hc
      exact fits_constant _ c
    · exact hkept hp hk
    · omega

/-- The power to a sum of exponents fits if no weight is lost. -/
theorem fits_add {base : Expr} {es : List Expr} {p : Expr} (hlength : 2 ≤ es.length)
    (hes : ∀ e ∈ es, FromNormal bounds base e) (h : power bounds base (add es) = .ok p)
    (htight : weight bounds p = exponentsWeight bounds base es) : Fits bounds base p := by
  have hbase : Normal bounds base := by
    obtain ⟨e, he⟩ := List.exists_mem_of_length_pos (Nat.zero_lt_of_lt hlength)
    exact (hes e he).normal_base
  have hexponent : Normal bounds (add es) := by
    refine normal_add fun e he => ?_
    obtain ⟨f, hf, -, -, -, rfl⟩ := hes e he
    exact normal_factorExponent hf
  have hlt := two_mul_weight_lt hlength hes
  have hpower := weight_power bounds h
  have houtcome := power_outcome h
  generalize hsum : add es = exponent at *
  generalize hresult : Except.ok p = result at houtcome
  cases houtcome with
  | one =>
    cases hresult
    exact fits_constant _ 1
  | base =>
    cases hresult
    refine fits_base hbase fun hnested => ?_
    have := hlt hnested
    omega
  | constants hb hzero hone =>
    exact fits_collect_constant hlength hes hsum hb hzero hone
      (constantPower_eq_ok (fun hs => power_fraction hs) hresult.symm) htight
  | nested hn =>
    have := hlt (.inl ⟨_, _, rfl⟩)
    rw [weight_pow_integer bounds hn] at hpower
    omega
  | spread hn =>
    have := hlt (.inr ⟨_, rfl⟩)
    rw [weight_pow_integer bounds hn] at hpower
    omega
  | @imaginary arguments n hn =>
    cases hresult
    have hone : 1 ≤ weight bounds (.function .imaginaryUnit arguments) := by
      rw [weight_function]
      omega
    have hle := le_exponentsWeight bounds fun e (_ : e ∈ es) =>
      hone.trans (weight_le_factorWeight bounds _ e)
    have hi := weight_imaginaryPower bounds n.num
    omega
  | inert hinert =>
    cases hresult
    exact fits_pow hbase hexponent (.inert hinert)

/-- The power to collected exponents fits if no weight is lost. -/
theorem fits_collect {base : Expr} {es : List Expr} {p : Expr} (hne : es ≠ [])
    (hes : ∀ e ∈ es, FromNormal bounds base e)
    (h : power bounds base (addExponents es) = .ok p)
    (htight : weight bounds p = exponentsWeight bounds base es) : Fits bounds base p := by
  match es, hne with
  | [e], _ =>
    -- The single factor is left as it is.
    obtain ⟨f, hf, hconstant, hmul, rfl, rfl⟩ := hes e (by simp)
    obtain rfl := Except.ok.inj ((power_factor hf).symm.trans h)
    exact ⟨hf, .inr ⟨hmul, rfl⟩⟩
  | _ :: _ :: _, _ => exact fits_add (by simp) hes h htight

/-! ## Products without loss -/

/-- Powers that fit their bases are assembled to a normal product. -/
theorem normal_assemble_of_fits {powers : List (Expr × List Expr)} {ps : List Expr} (c : Rat)
    (h : List.Forall₂ (fun p q => Fits bounds p.1 q) powers ps)
    (hnodup : (powers.map Prod.fst).Nodup) :
    Normal bounds (assemble c (ps.filter fun e => e.constant?.isNone)) := by
  rw [nonconstants_eq_filter]
  have hfits : ∀ p ∈ nonconstants ps, p.isConstant = false ∧ ∃ base, Fits bounds base p := by
    intro p hp
    obtain ⟨hp, hconstant⟩ := List.mem_filter.mp hp
    obtain ⟨q, -, hq⟩ := exists_of_forall₂_right h hp
    exact ⟨by simpa using hconstant, q.1, hq⟩
  have hbases : ((nonconstants ps).map factorBase).Sublist (powers.map Prod.fst) := by
    clear hnodup hfits
    induction h with
    | nil => exact List.Sublist.slnil
    | @cons p q powers ps hpq _ ih =>
      cases hq : q.isConstant with
      | true =>
        have hskip : nonconstants (q :: ps) = nonconstants ps := by
          simp [nonconstants, hq]
        rw [hskip]
        exact ih.cons _
      | false =>
        have hkeep : nonconstants (q :: ps) = q :: nonconstants ps := by
          simp [nonconstants, hq]
        rcases hpq.factor with hconstant | ⟨-, hbase⟩
        · rw [hq] at hconstant
          cases hconstant
        · rw [hkeep, List.map_cons, List.map_cons, hbase]
          exact ih.cons_cons _
  refine normal_assemble c ?_ (fun p hp => (hfits p hp).1) ?_ (hbases.nodup hnodup)
  · intro p hp
    obtain ⟨-, base, hbase⟩ := hfits p hp
    exact hbase.normal
  · intro p hp
    obtain ⟨hconstant, base, hbase⟩ := hfits p hp
    rcases hbase.factor with htrue | ⟨hmul, -⟩
    · rw [hconstant] at htrue
      cases htrue
    · exact hmul

/-- A product of normal factors that loses no weight is normal. -/
theorem normal_of_weight_multiply {fs : List Expr} {r : Expr} (hfs : ∀ f ∈ fs, Normal bounds f)
    (h : multiply bounds fs = .ok r)
    (htight : weights bounds fs ≤ weight bounds r ∨
      1 + weights bounds (nonconstants fs) ≤ termWeight bounds r) : Normal bounds r := by
  rw [multiply_eq] at h
  have hcollected := PowerProduct.collected_ofFactors fs
  rcases multiplyWith_eq_ok.mp h with ⟨-, rfl⟩ | ⟨-, ps, hps, hr⟩
  · exact .constant 0
  · have hle : List.Forall₂ (fun p q => weight bounds q ≤ exponentsWeight bounds p.1 p.2)
        (PowerProduct.ofFactors fs).powers ps :=
      forall₂_imp_of_mem hps fun p _ q hq =>
        weight_collect bounds (fun e r hr => weight_power bounds hr) hq
    have hboth := weight_of_powers bounds hr
    have htotal := PowerProduct.weight_ofFactors_total bounds fs
    have hpowers := PowerProduct.weight_ofFactors bounds fs
    -- All of the weight is in the powers, and none is lost in any of them.
    have heq : ((PowerProduct.ofFactors fs).powers.map fun p => exponentsWeight bounds p.1 p.2).sum ≤
        weights bounds ps := by
      unfold PowerProduct.weight at htotal hpowers
      rcases htight with htight | htight <;> omega
    have hall := forall₂_eq_of_weights bounds hle heq
    have hfits : List.Forall₂ (fun p q => Fits bounds p.1 q) (PowerProduct.ofFactors fs).powers ps := by
      refine forall₂_imp_of_mem (forall₂_and hps hall) fun p hp q hq => ?_
      refine fits_collect (hcollected.ne_nil p hp) (fun e he => ?_) hq.1 hq.2
      obtain ⟨f, hf, hconstant, hbase, hexponent⟩ := hcollected.exists_factor p hp e he
      obtain ⟨g, hg, hfg⟩ := mem_factorsList.mp hf
      exact ⟨f, normal_of_mem_factors (hfs g hg) hfg, hconstant, isMul_of_mem_factors hfg, hbase,
        hexponent⟩
    rw [hr]
    exact normal_assemble_of_fits _ hfits hcollected.nodup

/-! ## Powers without loss -/

theorem one_le_weight_of_not_opens {e : Expr} (h : ¬ Opens e) : 1 ≤ weight bounds e := by
  cases e with
  | symbol => rw [weight]
  | add ts => rw [weight_add]; omega
  | function f arguments => rw [weight_function]; omega
  | _ => exact absurd trivial h

theorem normal_power_constants {b q : Rat} {r : Expr}
    (h : power bounds (.constant b) (.constant q) = .ok r)
    (htight : weight bounds r ≤ 5 → weight bounds (.pow (.constant b) (.constant q)) ≤ 5) :
    Normal bounds r := by
  rcases power_constants bounds h with rfl | ⟨-, rfl⟩ | ⟨hb, hzero, hone, hform⟩
  · exact .constant 1
  · exact .constant b
  · rcases weight_constantForm bounds hform with ⟨c, rfl, -⟩ | ⟨rfl, hkept⟩ | ⟨hq, -, hkept, hfive, -⟩
    · exact .constant c
    · exact .pow (.constant b) (.constant q) (.kept hb hzero hone hkept)
    · have hle := htight hfive
      rw [weight_pow_constants bounds hq, constantPowerWeight, if_neg hkept] at hle
      omega

/-- An integer power of a normal power that loses no weight is normal. -/
theorem normal_nested {inner e r : Expr} {n : Rat} (h : Normal bounds (.pow inner e))
    (hn : Rational.isInteger n = true) {combined : Expr}
    (hcombined : multiplyWith (power bounds) [e, .constant n] = .ok combined)
    (hr : power bounds inner combined = .ok r)
    (htight : 2 * weight bounds (.pow inner e) ≤ weight bounds r) : Normal bounds r := by
  have hpower := weight_power bounds hr
  rcases weight_pow_cases bounds inner e with
    ⟨m, rfl, hm, hweight⟩ | ⟨b, q, rfl, rfl, -, hweight⟩ | ⟨-, -, hweight⟩
  · -- Only a power of a constant is an integer power that is opened.
    obtain rfl := eq_of_multiply_constants bounds hcombined
    have hmn := isInteger_mul hm hn
    rw [weight_pow_integer bounds hmn] at hpower
    cases h with
    | pow _ _ hshape =>
      cases hshape with
      | inert hinert =>
        have hone : 1 ≤ weight bounds inner :=
          one_le_weight_of_not_opens (hinert.not_opens m rfl hm)
        omega
      | @kept b _ =>
        refine normal_power_constants hr fun _ => ?_
        have := weight_constant_le bounds b
        rw [weight_pow_integer bounds hmn]
        omega
  · obtain rfl := eq_of_multiply_constants bounds hcombined
    have hthree := three_le_constantPowerWeight bounds b q
    exact normal_power_constants hr fun hfive => by omega
  · rw [← multiply_eq] at hcombined
    have hlt := weight_nested_lt bounds hweight (weight_multiply bounds hcombined).2
    omega

/-- A power of a normal base to a normal exponent that loses no weight is normal. -/
theorem normal_of_weight_power {base exponent r : Expr} (hbase : Normal bounds base)
    (hexponent : Normal bounds exponent) (h : power bounds base exponent = .ok r)
    (htight : weight bounds (.pow base exponent) ≤ weight bounds r) : Normal bounds r := by
  have houtcome := power_outcome h
  generalize hresult : Except.ok r = result at houtcome
  cases houtcome with
  | one =>
    cases hresult
    exact .constant 1
  | base =>
    cases hresult
    exact hbase
  | constants => exact normal_power_constants h fun hfive => htight.trans hfive
  | @nested inner e n hn =>
    obtain ⟨combined, hcombined, hr⟩ := bind_eq_ok.mp hresult.symm
    rw [weight_pow_integer bounds hn] at htight
    exact normal_nested hbase hn hcombined hr htight
  | @spread factors n hn =>
    obtain ⟨powers, hpowers, hr⟩ := bind_eq_ok.mp hresult.symm
    have hall := mapM_eq_ok.mp hpowers
    rw [← multiply_eq] at hr
    have hle : List.Forall₂ (fun f p => weight bounds p ≤ 2 * weight bounds f) factors powers := by
      refine forall₂_imp_of_mem hall fun f _ p hp => ?_
      rw [← weight_pow_integer bounds hn]
      exact weight_power bounds hp
    have hsum := weights_le_of_forall₂ bounds hle
    have hproduct := (weight_multiply bounds hr).1
    rw [weight_pow_integer bounds hn, weight_mul, ← sum_two_mul_weight] at htight
    have heq := forall₂_eq_of_weights bounds hle (by omega)
    refine normal_of_weight_multiply (fun p hp => ?_) hr (.inl (by omega))
    obtain ⟨f, hf, hfp, hweight⟩ := exists_of_forall₂_right (forall₂_and hall heq) hp
    have hlt : f.depth < (Expr.mul factors).depth := depth_lt_of_mem_children hf
    refine normal_of_weight_power (hbase.of_mem_children hf) hexponent hfp ?_
    rw [weight_pow_integer bounds hn]
    exact hweight.ge
  | @imaginary arguments n hn =>
    cases hresult
    have := weight_imaginaryPower bounds n.num
    rw [weight_pow_integer bounds hn, weight_function] at htight
    omega
  | inert hinert =>
    cases hresult
    exact .pow hbase hexponent (.inert hinert)
termination_by base.depth

end ClosedForm.Canonical
