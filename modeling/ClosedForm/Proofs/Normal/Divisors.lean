import ClosedForm.Proofs.Normal.Products

/-!
# Divisors of normal products

A power with a negative constant exponent is the reciprocal of what is written below a fraction line
for it: of the base, or of the power to the opposite exponent (`divisor`). The divisor is normal, has
the same base, and its power to `-1` is the factor again (`divides_divisor`).

Several divisors below a fraction line, with a constant or without one, are multiplied before their
product is raised to `-1`. What comes out has the factors that the single divisors stand for
(`exists_reciprocal`).
-/

namespace ClosedForm.Canonical

open ClosedForm.Expr

variable {bounds : Bounds}

/-! ## Opposite exponents -/

theorem isInteger_neg (q : Rat) : Rational.isInteger (-q) = Rational.isInteger q := rfl

/-- Integer powers beyond the limit are kept. -/
theorem kept_of_isInteger {b q : Rat} (hint : Rational.isInteger q = true)
    (hleast : q.num ≠ Rational.leastInt64) (hlimit : bounds.maxExactExponent < q.num.natAbs)
    (hb : b ≠ 0) : Kept bounds b q := by
  unfold Kept basicPower Canonical.constantPower
  dsimp only
  rw [if_pos hint, if_neg hleast, if_neg hlimit.not_ge, if_neg (by simp [hb])]
  rfl

/-- What keeps the power to a fraction, whether its integral part is zero or not. -/
def KeepsFraction (bounds : Bounds) (b q : Rat) : Prop :=
  rootBound ≤ q.den ∨ q.num ≠ Rational.leastInt64 ∧
    (bounds.maxExactExponent < q.num.natAbs ∨ Rational.root? b q.den = none ∧ b < 0)

theorem KeepsFraction.kept {b q : Rat} (h : KeepsFraction bounds b q)
    (hint : Rational.isInteger q = false) (hb : b ≠ 0) : Kept bounds b q := by
  unfold Kept basicPower Canonical.constantPower
  dsimp only
  rw [if_neg (by simp [hint]), if_neg hb]
  split
  · rfl
  next hden =>
  obtain ⟨hleast, h⟩ := h.resolve_left hden
  rw [if_neg hleast]
  split
  · rfl
  next hlimit =>
  obtain ⟨hroot, hneg⟩ := h.resolve_left hlimit
  rw [hroot]
  dsimp only
  rw [if_pos hneg]
  rfl

/-- With a negative exponent, a positive base would give up the integral part. -/
theorem Kept.keepsFraction {b q : Rat} (h : Kept bounds b q) (hint : Rational.isInteger q = false)
    (hq : q < 0) : KeepsFraction bounds b q := by
  have hb := h.base_ne_zero hint
  have hsplits := h.not_splits
  have hfloor : q.floor ≠ 0 := by
    have : q.floor < 0 := by
      rw [Rat.floor_lt_iff]
      simpa using hq
    exact this.ne
  by_contra hnone
  simp only [KeepsFraction, not_or, not_and, not_le, not_lt] at hnone
  obtain ⟨hden, hrest⟩ := hnone
  unfold Kept basicPower Canonical.constantPower at h
  dsimp only at h
  rw [if_neg (by simp [hint]), if_neg hb, if_neg hden.not_ge] at h
  split at h
  · cases h
  next hleast =>
  obtain ⟨hnum, hbase⟩ := hrest hleast
  rw [if_neg hnum.not_gt] at h
  cases hroot : Rational.root? b q.den with
  | some root =>
    rw [hroot] at h
    obtain ⟨c, -, hc⟩ := bind_eq_ok.mp h
    cases hc
  | none =>
    exact hsplits ⟨hint, lt_of_le_of_ne (hbase hroot) hb.symm, hden, hleast, hnum, hroot, hfloor⟩

/-- The integer power `0 ^ q` with a negative exponent fails. -/
theorem Kept.base_ne_zero_of_neg {b q : Rat} (h : Kept bounds b q) (hq : q < 0) : b ≠ 0 := by
  cases hint : Rational.isInteger q with
  | false => exact h.base_ne_zero hint
  | true =>
    rintro rfl
    have hlimit := h.limit_lt hint
    unfold Kept basicPower Canonical.constantPower at h
    dsimp only at h
    rw [if_pos hint] at h
    split at h
    · cases h
    rw [if_neg hlimit.not_ge, if_pos (by simp [hq])] at h
    cases h

/-- A power of constants with a negative exponent that is kept is kept with the opposite one. -/
theorem Kept.neg {b q : Rat} (h : Kept bounds b (-q)) (hq : 0 < q) : Kept bounds b q := by
  have hneg : -q < 0 := neg_lt_zero.mpr hq
  have hb := h.base_ne_zero_of_neg hneg
  have hnum : (-q).num.natAbs = q.num.natAbs := by rw [Rat.neg_num, Int.natAbs_neg]
  -- The least numerator is negative, so a positive exponent is never refused.
  have hleast : q.num ≠ Rational.leastInt64 := by
    have := Rat.num_pos.mpr hq
    unfold Rational.leastInt64
    omega
  cases hint : Rational.isInteger q with
  | true => exact kept_of_isInteger hint hleast (hnum ▸ h.limit_lt hint) hb
  | false =>
    have hkeeps := (h.keepsFraction hint hneg).imp id And.right
    rw [hnum] at hkeeps
    exact KeepsFraction.kept (hkeeps.imp id fun h => ⟨hleast, h⟩) hint hb

theorem PowerShape.neg {b : Expr} {q : Rat} (h : PowerShape bounds b (.constant (-q))) (hq : 0 < q)
    (hone : q ≠ 1) : PowerShape bounds b (.constant q) := by
  cases h with
  | inert h =>
    refine .inert ⟨fun heq => ?_, fun heq => hone (Expr.constant.inj heq), h.base_ne_one,
      fun _ => h.not_constants rfl, fun n heq hn => ?_⟩
    · exact hq.ne' (Expr.constant.inj heq)
    · cases heq
      exact h.not_opens (-q) rfl (by rw [isInteger_neg, hn])
  | kept hb _ _ h => exact .kept hb hq.ne' hone (h.neg hq)

/-! ## Divisors -/

/-- What is written below a fraction line for the power to the exponent `-q`. -/
def divisor (base : Expr) (q : Rat) : Expr :=
  if q = 1 then base else .pow base (.constant q)

/-- The expression is a normal divisor that stands for the factor. -/
structure Divides (bounds : Bounds) (d g : Expr) : Prop where
  normal : Normal bounds d
  normal_factor : Normal bounds g
  isPow : ∃ b x, g = .pow b x
  power : power bounds d (.constant (-1)) = .ok g
  base : factorBase d = factorBase g
  not_constant : d.isConstant = false
  not_mul : d.isMul = false

theorem divides_divisor (hlimit : 1 ≤ bounds.maxExactExponent) {b : Expr} {q : Rat} (hq : 0 < q)
    (hb : Normal bounds b) (h : PowerShape bounds b (.constant (-q))) :
    Divides bounds (divisor b q) (.pow b (.constant (-q))) := by
  unfold divisor
  split
  · next hone =>
    subst hone
    -- An integer power is kept where its base is not opened, or beyond the limit.
    have hopens : ¬ Opens b := by
      clear hb
      generalize hx : Expr.constant (-1) = x at h
      cases h with
      | inert h => exact h.not_opens (-1) hx.symm rfl
      | kept _ _ _ h =>
        cases hx
        have hlt := h.limit_lt rfl
        exact absurd (lt_of_le_of_lt hlimit hlt) (by decide)
    refine ⟨hb, .pow hb (.constant _) h, ⟨_, _, rfl⟩, power_of_shape h, ?_, ?_, ?_⟩
    all_goals cases b <;> first | rfl | exact absurd trivial hopens
  · next hone =>
    have hpow : PowerShape bounds b (.constant q) := h.neg hq hone
    refine ⟨.pow hb (.constant q) hpow, .pow hb (.constant _) h, ⟨_, _, rfl⟩, ?_, rfl, rfl, rfl⟩
    have hcombined : multiplyWith (power bounds) [.constant q, .constant (-1)] =
        .ok (.constant (-q)) := by
      rw [← multiply_eq, multiply_constants, mul_neg_one]
    have hbase : (Expr.pow b (.constant q)).isOne = false := rfl
    rw [power_eq]
    unfold powerStep
    rw [if_neg (by simp [hbase, isZero]), if_neg (by decide +kernel)]
    dsimp only
    rw [if_pos (by rfl), hcombined]
    exact power_of_shape h

/-- The power of a constant to `-1` is computed. -/
theorem power_constant_neg_one (hlimit : 1 ≤ bounds.maxExactExponent) {d : Rat} (hd : d ≠ 0) :
    power bounds (.constant d) (.constant (-1)) = .ok (.constant (1 / d)) := by
  rw [power_eq]
  unfold powerStep
  by_cases hone : d = 1
  · rw [hone, if_pos (by rfl), div_one]
    rfl
  · rw [if_neg (by simp [isZero, isOne, hone]), if_neg (by decide +kernel)]
    dsimp only
    unfold Canonical.constantPower
    dsimp only
    rw [if_pos (by rfl), if_pos (show (-1 : Rat).num.natAbs ≤ _ from hlimit)]
    have hpower : Rational.power d (-1 : Rat).num = .ok (1 / d) := by
      show Rational.reciprocal (Rat.pow d 1) = _
      have hpow : Rat.pow d 1 = d := pow_one d
      rw [hpow]
      unfold Rational.reciprocal Rational.divide
      rw [if_neg hd]
    rw [hpower]
    rfl

/-! ## Products of divisors -/

theorem isPow_of_divides {ds gs : List Expr} (h : List.Forall₂ (Divides bounds) ds gs) :
    ∀ g ∈ gs, Normal bounds g ∧ ∃ b x, g = .pow b x := by
  intro g hg
  obtain ⟨d, -, hd⟩ := exists_of_forall₂_right h hg
  exact ⟨hd.normal_factor, hd.isPow⟩

theorem factorBase_of_divides {ds gs : List Expr} (h : List.Forall₂ (Divides bounds) ds gs) :
    ds.map factorBase = gs.map factorBase := by
  induction h with
  | nil => rfl
  | cons hd _ ih => rw [List.map_cons, List.map_cons, hd.base, ih]

theorem collects_withFactor_pows {gs : List Expr} (h : ∀ g ∈ gs, ∃ b x, g = .pow b x) (c : Rat) :
    Collects (withFactor c gs) c gs := by
  refine collects_withFactor ?_ ?_ c
  all_goals
    intro g hg
    obtain ⟨b, x, rfl⟩ := h g hg
    rfl

/-- Powers with distinct bases, put in order. -/
theorem factorShape_pows {gs : List Expr} (hnil : gs ≠ []) (h : ∀ g ∈ gs, ∃ b x, g = .pow b x)
    (hbases : (gs.map factorBase).Nodup) : FactorShape (Expr.sort gs) := by
  refine factorShape_sort hnil ?_ ?_ hbases ?_
  · intro g hg
    obtain ⟨b, x, rfl⟩ := h g hg
    rfl
  · intro g hg
    obtain ⟨b, x, rfl⟩ := h g hg
    rfl
  · rintro ts rfl
    obtain ⟨b, x, hpow⟩ := h (.add ts) (by simp)
    cases hpow

/-- The power to `-1` is spread over a coefficient and divisors. -/
theorem power_product_neg_one (hlimit : 1 ≤ bounds.maxExactExponent) {c : Rat} {ds gs : List Expr}
    (hc : c ≠ 0) (h : List.Forall₂ (Divides bounds) ds gs) (hlength : 2 ≤ (withFactor c ds).length) :
    power bounds (Expr.product (withFactor c ds)) (.constant (-1)) =
      multiply bounds (withFactor (1 / c) gs) := by
  have hproduct : Expr.product (withFactor c ds) = .mul (withFactor c ds) := by
    match withFactor c ds, hlength with
    | _ :: _ :: _, _ => rfl
  have hdivisors : ds.mapM (fun f => power bounds f (.constant (-1))) = .ok gs :=
    mapM_eq_ok.mpr (h.imp fun _ _ hd => hd.power)
  have hpowers : (withFactor c ds).mapM (fun f => power bounds f (.constant (-1))) =
      .ok (withFactor (1 / c) gs) := by
    by_cases hone : c = 1
    · rw [hone, withFactor_one, div_one, withFactor_one, hdivisors]
    · have hone' : 1 / c ≠ 1 := fun heq => hone (by simpa using heq)
      rw [withFactor_of_ne hone, withFactor_of_ne hone', List.mapM_cons,
        power_constant_neg_one hlimit hc, hdivisors]
      rfl
  rw [hproduct, power_eq]
  unfold powerStep
  rw [if_neg (by simp [isZero, isOne]), if_neg (by decide +kernel)]
  dsimp only
  rw [if_pos (by rfl), hpowers, multiply_eq]
  rfl

/-- The reciprocal of a product of a coefficient and divisors, in any order, has the reciprocal
coefficient and the factors that the divisors stand for. -/
theorem exists_reciprocal (hlimit : 1 ≤ bounds.maxExactExponent) {c : Rat} {ds gs : List Expr}
    (hc : c ≠ 0) (h : List.Forall₂ (Divides bounds) ds gs) (hnil : ds ≠ [])
    (hbases : (gs.map factorBase).Nodup) (hsum : ∀ ts, ds ≠ [.add ts])
    (hlength : 2 ≤ (withFactor c ds).length) :
    ∃ p q, multiply bounds (withFactor c ds) = .ok p ∧ Normal bounds p ∧
      power bounds p (.constant (-1)) = .ok q ∧ Normal bounds q ∧ Collects [q] (1 / c) gs := by
  have hconstant : ∀ d ∈ ds, d.isConstant = false ∧ d.isMul = false ∧ Normal bounds d := by
    intro d hd
    obtain ⟨i, hi, rfl⟩ := List.getElem_of_mem hd
    have hdivides := h.get hi (h.length_eq ▸ hi)
    exact ⟨hdivides.not_constant, hdivides.not_mul, hdivides.normal⟩
  have hterm : IsTerm bounds c (Expr.sort ds) :=
    ⟨hc, fun d hd => (hconstant d (mem_sort.mp hd)).2.2, .inr <|
      factorShape_sort hnil (fun d hd => (hconstant d hd).1) (fun d hd => (hconstant d hd).2.1)
        (factorBase_of_divides h ▸ hbases) hsum⟩
  -- The divisors are multiplied in order, and the reciprocals come out in the same order.
  obtain ⟨gs', hsorted, hperm⟩ := List.perm_comp_forall₂ (sort_perm ds) h
  have hpow := isPow_of_divides hsorted
  have hnil' : gs' ≠ [] := by
    rintro rfl
    have hsort := sort_perm ds
    rw [List.forall₂_nil_right_iff.mp hsorted] at hsort
    exact hnil (List.nil_perm.mp hsort)
  have hterm' : IsTerm bounds (1 / c) (Expr.sort gs') :=
    ⟨one_div_ne_zero hc, fun g hg => (hpow g (mem_sort.mp hg)).1, .inr <|
      factorShape_pows hnil' (fun g hg => (hpow g hg).2)
        ((hperm.map factorBase).nodup_iff.mpr hbases)⟩
  have hlength' : 2 ≤ (withFactor c (Expr.sort ds)).length := by
    unfold withFactor at hlength ⊢
    split at hlength <;> simp_all [(sort_perm ds).length_eq]
  refine ⟨_, _, hterm.multiply ?_, hterm.normal, ?_, hterm'.normal,
    hterm'.collects.perm ((sort_perm gs').trans hperm)⟩
  · exact (collects_withFactor (fun d hd => (hconstant d hd).1) (fun d hd => (hconstant d hd).2.1)
      c).perm (sort_perm ds).symm
  · rw [power_product_neg_one hlimit hc hsorted hlength']
    exact hterm'.multiply ((collects_withFactor_pows (fun g hg => (hpow g hg).2) (1 / c)).perm
      (sort_perm gs').symm)

end ClosedForm.Canonical
