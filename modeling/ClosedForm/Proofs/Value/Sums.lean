import ClosedForm.Proofs.Value.Interpretation

/-!
# The rule for sums keeps values

A linear form has a value (`LinearForm.value`): its constant plus its coefficients times the
values of their expressions. Gathering terms adds their values to it (`value_gather`), and the
sum that a form stands for has its value (`value_toExpr`). Hence `value_add_rule`: the sum of
some terms by the rule has the sum of their values.
-/

namespace ClosedForm

variable {K : Type*} [Field K] [CharZero K] {M : Interpretation K} {σ : String → K}

open Interpretation

/-! ## Coefficients -/

/-- Splitting off a coefficient keeps the product of the two parts. -/
theorem value_splitCoefficient {e : Expr} {x : K} (h : M.value σ e = some x) :
    ∃ y, M.value σ e.splitCoefficient.2 = some y ∧ x = e.splitCoefficient.1 * y := by
  unfold Expr.splitCoefficient
  split
  · next c =>
    rw [value_constant, Option.some.injEq] at h
    exact ⟨1, value_one, by rw [← h, mul_one]⟩
  · next c factors =>
    rw [value_mul] at h
    obtain ⟨_, y, hc, hy, rfl⟩ := productValue_cons_eq_some.mp h
    rw [value_constant, Option.some.injEq] at hc
    exact ⟨y, (value_product factors).trans hy, by rw [← hc]⟩
  · exact ⟨x, h, by rw [Rat.cast_one, one_mul]⟩

/-- A coefficient in front of an expression multiplies its value. -/
theorem value_scale {e : Expr} {x : K} (c : Rat) (h : M.value σ e = some x) :
    M.value σ (e.scale c) = some (c * x) := by
  unfold Expr.scale
  split
  · next hc => rw [hc, Rat.cast_one, one_mul, h]
  · split
    · next factors =>
      rw [value_product, productValue_cons_eq_some]
      exact ⟨c, x, value_constant c, (value_mul factors).symm.trans h, rfl⟩
    · rw [value_product, productValue_cons_eq_some]
      refine ⟨c, x, value_constant c, ?_, rfl⟩
      rw [productValue_cons_eq_some]
      exact ⟨x, 1, h, by rw [productValue], mul_one x⟩

namespace LinearForm

/-! ## Linear forms -/

variable (M σ)

/-- The sum of the coefficients times the values of their expressions. -/
def termsValue : List (Expr × Rat) → Option K
  | [] => some 0
  | (e, c) :: rest => Option.map₂ (fun x s => c * x + s) (M.value σ e) (termsValue rest)

/-- The value of a form: the constant plus the value of the terms. -/
def value (form : LinearForm) : Option K :=
  (termsValue M σ form.terms).map fun s => form.constant + s

variable {M σ}

theorem termsValue_cons_eq_some {e : Expr} {c : Rat} {rest : List (Expr × Rat)} {x : K} :
    termsValue M σ ((e, c) :: rest) = some x ↔
      ∃ y z, M.value σ e = some y ∧ termsValue M σ rest = some z ∧ c * y + z = x := by
  simp [termsValue, Option.map₂_eq_some_iff]

theorem value_eq_some {form : LinearForm} {x : K} :
    form.value M σ = some x ↔
      ∃ s, termsValue M σ form.terms = some s ∧ form.constant + s = x := by
  simp [value, Option.map_eq_some_iff]

theorem value_zero : zero.value M σ = some 0 :=
  value_eq_some.mpr ⟨0, rfl, by simp [zero]⟩

/-- Adding a term adds its value. -/
theorem termsValue_addTerm {terms : List (Expr × Rat)} {s : K} {e : Expr} {x : K} (c : Rat)
    (hterms : termsValue M σ terms = some s) (he : M.value σ e = some x) :
    termsValue M σ (addTerm e c terms) = some (s + c * x) := by
  induction terms generalizing s with
  | nil =>
    obtain rfl : (0 : K) = s := by simpa [termsValue] using hterms
    exact termsValue_cons_eq_some.mpr ⟨x, 0, he, rfl, by ring⟩
  | cons t rest ih =>
    obtain ⟨other, d⟩ := t
    obtain ⟨y, z, hy, hz, rfl⟩ := termsValue_cons_eq_some.mp hterms
    rw [addTerm]
    split
    · next heq =>
      subst heq
      obtain rfl : y = x := Option.some.inj (hy.symm.trans he)
      exact termsValue_cons_eq_some.mpr ⟨y, z, hy, hz, by rw [Rat.cast_add]; ring⟩
    · exact termsValue_cons_eq_some.mpr ⟨y, z + c * x, hy, ih hz, by ring⟩

mutual

/-- Gathering an expression adds its value times the scale. -/
theorem value_gather (scale : Rat) (form : LinearForm) (e : Expr) {s x : K}
    (hform : form.value M σ = some s) (he : M.value σ e = some x) :
    (gather scale form e).value M σ = some (s + scale * x) := by
  unfold gather
  split
  · next c =>
    obtain ⟨r, hr, rfl⟩ := value_eq_some.mp hform
    rw [value_constant, Option.some.injEq] at he
    refine value_eq_some.mpr ⟨r, hr, ?_⟩
    rw [← he]
    push_cast
    ring
  · next terms =>
    rw [value_add] at he
    exact value_gatherList scale form terms hform he
  · next c terms =>
    rw [value_mul] at he
    obtain ⟨_, y, hc, hy, rfl⟩ := productValue_cons_eq_some.mp he
    obtain ⟨z, w, hz, hw, rfl⟩ := productValue_cons_eq_some.mp hy
    rw [value_constant, Option.some.injEq] at hc
    rw [productValue, Option.some.injEq] at hw
    rw [value_add] at hz
    rw [value_gatherList (scale * c) form terms hform hz, ← hc, ← hw]
    push_cast
    ring_nf
  · obtain ⟨y, hy, rfl⟩ := value_splitCoefficient he
    obtain ⟨r, hr, rfl⟩ := value_eq_some.mp hform
    refine value_eq_some.mpr ⟨_, termsValue_addTerm _ hr hy, ?_⟩
    push_cast
    ring

/-- Gathering expressions adds their values times the scale. -/
theorem value_gatherList (scale : Rat) (form : LinearForm) (es : List Expr) {s x : K}
    (hform : form.value M σ = some s) (hes : M.sumValue σ es = some x) :
    (gatherList scale form es).value M σ = some (s + scale * x) := by
  match es with
  | [] =>
    rw [sumValue, Option.some.injEq] at hes
    rw [gatherList, hform, ← hes, mul_zero, add_zero]
  | e :: es =>
    obtain ⟨y, z, hy, hz, rfl⟩ := sumValue_cons_eq_some.mp hes
    rw [gatherList, value_gatherList scale _ es (value_gather scale form e hform hy) hz]
    ring_nf

end

/-- The terms with a coefficient other than `0` have the value of all terms. -/
theorem sumValue_scaled {terms : List (Expr × Rat)} {s : K}
    (h : termsValue M σ terms = some s) :
    M.sumValue σ (terms.filterMap fun t => if t.2 = 0 then none else some (t.1.scale t.2)) =
      some s := by
  induction terms generalizing s with
  | nil => simpa [termsValue, sumValue] using h
  | cons t rest ih =>
    obtain ⟨e, c⟩ := t
    obtain ⟨y, z, hy, hz, rfl⟩ := termsValue_cons_eq_some.mp h
    by_cases hc : c = 0
    · simp [hc, ih hz]
    · rw [List.filterMap_cons_some (by rw [if_neg hc])]
      exact sumValue_cons_eq_some.mpr ⟨_, z, value_scale c hy, ih hz, rfl⟩

/-- The sum that a form stands for has the value of the form. -/
theorem value_toExpr {form : LinearForm} {x : K} (h : form.value M σ = some x) :
    M.value σ form.toExpr = some x := by
  obtain ⟨s, hs, rfl⟩ := value_eq_some.mp h
  unfold toExpr
  dsimp only
  rw [value_sum, sumValue_perm (Expr.sort_perm _)]
  split
  · next hzero => rw [List.nil_append, sumValue_scaled hs, hzero, Rat.cast_zero, zero_add]
  · exact sumValue_cons_eq_some.mpr ⟨_, s, value_constant _, sumValue_scaled hs, rfl⟩

end LinearForm

/-- The sum by the rule has the sum of the values. -/
theorem value_add_rule {terms : List Expr} {x : K} (h : M.sumValue σ terms = some x) :
    M.value σ (Canonical.add terms) = some x := by
  refine LinearForm.value_toExpr ?_
  rw [LinearForm.value_gatherList 1 .zero terms LinearForm.value_zero h, Rat.cast_one, one_mul,
    zero_add]

end ClosedForm
