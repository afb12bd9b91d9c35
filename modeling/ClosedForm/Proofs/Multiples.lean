import ClosedForm.Proofs.Combinations
import ClosedForm.Proofs.Normal.Products

/-!
# Multiples

A rational factor in front of a product goes into its coefficient, or is distributed over the one sum
that the product is. In both cases the results for two factors `c` and `d` are in the proportion of `c`
to `d`, whatever they are combined of, once both are normal (`Canonical.combination_multiply`). For
results that need another pass this fails: `1` in front of `2*x` leaves a term with the coefficient `2`,
and `3` in front of it a product in a product.
-/

namespace ClosedForm

open ClosedForm.Expr Canonical

variable {M : Type*} [AddCommGroup M] [Module Rat M] {unit : M} {value : Expr → M} {bounds : Bounds}

theorem smul_eq_of_mul {c d k : Rat} (hk : k ≠ 0) {x y : M} (h : (d * k) • x = (c * k) • y) :
    d • x = c • y := by
  rw [mul_comm d, mul_comm c, mul_smul, mul_smul] at h
  exact smul_right_injective M hk h

/-! ## Coefficients of products -/

namespace Canonical

theorem factorShape_of_mul {c : Rat} {gs : List Expr}
    (h : Normal bounds (.mul (.constant c :: gs))) : FactorShape gs := by
  obtain ⟨d, hs, heq, -, hshape⟩ := h.exists_withFactor
  by_cases hd : d = 1
  · rw [hd, withFactor_one] at heq
    have hconstant := hshape.not_constant (.constant c) (heq ▸ List.mem_cons_self)
    simp at hconstant
  · rw [withFactor_of_ne hd] at heq
    rwa [(List.cons.inj heq).2]

/-- A coefficient other than `1` shows what can stand behind all coefficients. -/
theorem exists_combination_withFactor {c : Rat} {gs : List Expr} (hc : c ≠ 1)
    (h : Normal bounds (Expr.product (withFactor c gs))) :
    ∃ m : M, ∀ d, (Expr.product (withFactor d gs)).combination unit value = d • m := by
  rw [withFactor_of_ne hc] at h
  match gs with
  | [] => exact ⟨unit, fun d => by rw [product_withFactor_nil, combination_constant]⟩
  | g :: gs => exact ⟨_, fun d => (factorShape_of_mul h).combination_term unit value⟩

/-- Two coefficients in front of the same factors. -/
theorem combination_withFactor {c d : Rat} {gs : List Expr}
    (hc : Normal bounds (Expr.product (withFactor c gs)))
    (hd : Normal bounds (Expr.product (withFactor d gs))) :
    d • (Expr.product (withFactor c gs)).combination unit value =
      c • (Expr.product (withFactor d gs)).combination unit value := by
  by_cases heq : c = d
  · rw [heq]
  have hslope : ∃ m : M, ∀ k, (Expr.product (withFactor k gs)).combination unit value = k • m := by
    by_cases hone : c = 1
    · exact exists_combination_withFactor (hone ▸ Ne.symm heq) hd
    · exact exists_combination_withFactor hone hc
  obtain ⟨m, hm⟩ := hslope
  rw [hm, hm, smul_comm]

end Canonical

/-! ## Coefficients of sums -/

namespace LinearForm

theorem exists_scale_eq (e : Expr) :
    ∃ gs, ∀ c, Canonical.Normal bounds (e.scale c) → e.scale c = Expr.product (withFactor c gs) := by
  cases e with
  | mul fs =>
    refine ⟨fs, fun c h => ?_⟩
    unfold Expr.scale withFactor at *
    split
    · next hone =>
      rw [if_pos hone] at h
      generalize he : Expr.mul fs = e at h
      cases h with
      | @mul d gs _ _ _ hlength =>
        cases he
        match hfs : withFactor d gs, hlength with
        | _ :: _ :: _, _ => rfl
      | _ => cases he
    · rfl
  | _ => exact ⟨[_], fun c _ => by unfold Expr.scale withFactor; split <;> rfl⟩

/-- The form with all coefficients multiplied by a number. -/
def scaled (c : Rat) (form : LinearForm) : LinearForm :=
  ⟨c * form.constant, form.terms.map fun t => (t.1, c * t.2)⟩

theorem addTerm_scaled (c : Rat) (e : Expr) (d : Rat) (terms : List (Expr × Rat)) :
    addTerm e (c * d) (terms.map fun t => (t.1, c * t.2)) =
      (addTerm e d terms).map fun t => (t.1, c * t.2) := by
  induction terms with
  | nil => rfl
  | cons t terms ih =>
    rw [List.map_cons, addTerm, addTerm]
    split
    · rw [List.map_cons, mul_add]
    · rw [List.map_cons, ih]

mutual

theorem gather_scaled (c scale : Rat) (form : LinearForm) (e : Expr) :
    gather (c * scale) (form.scaled c) e = (gather scale form e).scaled c := by
  unfold gather
  split
  · simp only [scaled, mul_add, mul_assoc]
  · next terms => exact gatherList_scaled c scale form terms
  · next d terms =>
    rw [mul_assoc]
    exact gatherList_scaled c (scale * d) form terms
  · simp only [scaled, mul_assoc, addTerm_scaled]

/-- A number in front of the terms goes into all coefficients. -/
theorem gatherList_scaled (c scale : Rat) (form : LinearForm) (es : List Expr) :
    gatherList (c * scale) (form.scaled c) es = (gatherList scale form es).scaled c := by
  match es with
  | [] => rfl
  | e :: es => rw [gatherList, gatherList, gather_scaled, gatherList_scaled]

end

theorem normal_of_mem_parts {form : LinearForm} (h : Canonical.Normal bounds form.toExpr) {e : Expr}
    (he : e ∈ form.parts) : Canonical.Normal bounds e := by
  rw [toExpr_eq] at h
  have hmem : e ∈ Expr.sort form.parts := mem_sort.mpr he
  match hparts : Expr.sort form.parts with
  | [] => simp [hparts] at hmem
  | [t] =>
    rw [hparts] at h hmem
    rwa [List.mem_singleton.mp hmem]
  | s :: t :: ts =>
    rw [hparts] at h hmem
    exact h.of_mem_children hmem

/-- Two numbers in front of the same sum. -/
theorem combination_scaled {form : LinearForm} {c d : Rat} (hne : c ≠ 0) (hne' : d ≠ 0)
    (hc : Canonical.Normal bounds (form.scaled c).toExpr)
    (hd : Canonical.Normal bounds (form.scaled d).toExpr) :
    d • (form.scaled c).toExpr.combination unit value =
      c • (form.scaled d).toExpr.combination unit value := by
  have hpart {k : Rat} (hk : k ≠ 0) (h : Canonical.Normal bounds (form.scaled k).toExpr)
      {t : Expr × Rat} (ht : t ∈ form.terms) (hzero : t.2 ≠ 0) :
      Canonical.Normal bounds (t.1.scale (k * t.2)) :=
    normal_of_mem_parts h (mem_parts.mpr (.inr ⟨_, List.mem_map_of_mem ht,
      mul_ne_zero hk hzero, rfl⟩))
  rw [combination_toExpr, combination_toExpr]
  simp only [scaled, smul_add, List.smul_sum, List.map_map]
  congr 1
  · module
  · congr 1
    refine List.map_congr_left fun t ht => ?_
    simp only [Function.comp_apply]
    by_cases hzero : t.2 = 0
    · simp [hzero]
    · have hct := hpart hne hc ht hzero
      have hdt := hpart hne' hd ht hzero
      obtain ⟨gs, hgs⟩ : ∃ gs, ∀ c, Canonical.Normal bounds (t.1.scale c) →
          t.1.scale c = Expr.product (withFactor c gs) := exists_scale_eq t.1
      rw [if_neg (mul_ne_zero hne hzero), if_neg (mul_ne_zero hne' hzero)]
      have hceq := hgs _ hct
      have hdeq := hgs _ hdt
      rw [hceq] at hct ⊢
      rw [hdeq] at hdt ⊢
      exact smul_eq_of_mul hzero (combination_withFactor hct hdt)

end LinearForm

/-! ## Products -/

namespace Canonical

/-- A coefficient in front of a sum is distributed over it. -/
theorem assemble_sum {ts : List Expr} {c : Rat} (hc : c ≠ 0)
    (h : Normal bounds (assemble c [.add ts])) :
    assemble c [.add ts] = ((LinearForm.gatherList 1 .zero ts).scaled c).toExpr := by
  have hscaled := LinearForm.gatherList_scaled c 1 .zero ts
  rw [mul_one, show LinearForm.zero.scaled c = .zero by simp [LinearForm.scaled, LinearForm.zero]]
    at hscaled
  unfold assemble at h ⊢
  rw [if_neg hc] at h ⊢
  dsimp only at h ⊢
  rw [← hscaled]
  split
  · next hone =>
    rw [if_pos hone] at h
    rw [hone]
    cases h with
    | add hts hshape => exact (add_of_shape hts hshape).symm
  · rfl

/-- Two coefficients in front of the same powers. -/
theorem combination_assemble {qs : List Expr} (hconstant : ∀ q ∈ qs, q.isConstant = false)
    {c d : Rat} (hne : c ≠ 0) (hne' : d ≠ 0) (hc : Normal bounds (assemble c qs))
    (hd : Normal bounds (assemble d qs)) :
    d • (assemble c qs).combination unit value = c • (assemble d qs).combination unit value := by
  by_cases hsum : ∃ ts, qs = [.add ts]
  · obtain ⟨ts, rfl⟩ := hsum
    have hceq := assemble_sum hne hc
    have hdeq := assemble_sum hne' hd
    rw [hceq] at hc ⊢
    rw [hdeq] at hd ⊢
    exact LinearForm.combination_scaled hne hne' hc hd
  · have hnot := not_exists.mp hsum
    rw [assemble_of_not_constant hconstant hnot hne] at hc ⊢
    rw [assemble_of_not_constant hconstant hnot hne'] at hd ⊢
    exact combination_withFactor hc hd

open PowerProduct

theorem foldl_addFactor_coefficient (c k : Rat) (fs : List Expr) (powers : List (Expr × List Expr)) :
    fs.foldl addFactor ⟨c * k, powers⟩ =
      ⟨c * (fs.foldl addFactor ⟨k, powers⟩).coefficient, (fs.foldl addFactor ⟨k, powers⟩).powers⟩ := by
  induction fs generalizing k powers with
  | nil => rfl
  | cons f fs ih => cases f <;> simp only [List.foldl_cons, addFactor, mul_assoc, ih]

/-- A coefficient among the factors is collected with the other constants. -/
theorem ofFactors_withFactor (p : Expr) (c : Rat) (gs : List Expr) :
    ofFactors (p :: withFactor c gs) =
      ⟨c * (ofFactors (p :: gs)).coefficient, (ofFactors (p :: gs)).powers⟩ := by
  by_cases hc : c = 1
  · rw [hc, withFactor_one, one_mul]
  · rw [withFactor_of_ne hc]
    unfold ofFactors
    simp only [factorsList, Expr.factors, List.foldl_append]
    generalize p.factors.foldl addFactor one = product
    show (factorsList gs).foldl addFactor (product.addFactor (.constant c)) = _
    rw [addFactor_constant, mul_comm, foldl_addFactor_coefficient]

/-- A product is assembled from the same powers, whatever coefficient is among the factors. -/
theorem exists_assemble {p r : Expr} {c : Rat} {gs : List Expr} (hc : c ≠ 0)
    (h : multiply bounds (p :: withFactor c gs) = .ok r) :
    ∃ k qs, (∀ q ∈ qs, q.isConstant = false) ∧
      ∀ d, d ≠ 0 → multiply bounds (p :: withFactor d gs) = .ok (assemble (d * k) qs) := by
  have hparts (d : Rat) (hd : d ≠ 0) : multiply bounds (p :: withFactor d gs) =
      if (ofFactors (p :: gs)).coefficient = 0 then .ok .zero
      else (ofFactors (p :: gs)).powers.mapM (fun t => power bounds t.1 (addExponents t.2)) >>=
        fun ps => .ok (assemble (d * (ofFactors (p :: gs)).coefficient * constantPart ps)
          (proper ps)) := by
    rw [multiply_eq, multiplyWith, ofFactors_withFactor]
    simp only [mul_eq_zero, hd, false_or]
    rfl
  by_cases hzero : (ofFactors (p :: gs)).coefficient = 0
  · refine ⟨0, [], by simp, fun d hd => ?_⟩
    rw [hparts d hd, if_pos hzero, mul_zero, assemble, if_pos rfl]
  · rw [hparts c hc, if_neg hzero, bind_eq_ok] at h
    obtain ⟨ps, hps, -⟩ := h
    refine ⟨(ofFactors (p :: gs)).coefficient * constantPart ps, proper ps, fun q hq => ?_,
      fun d hd => ?_⟩
    · simpa [isConstant] using (List.mem_filter.mp hq).2
    · rw [hparts d hd, if_neg hzero, hps, ← mul_assoc]
      rfl

/-- Two coefficients among the same factors. -/
theorem combination_multiply {p r s : Expr} {c d : Rat} {gs : List Expr} (hc : c ≠ 0) (hd : d ≠ 0)
    (hr : multiply bounds (p :: withFactor c gs) = .ok r) (hrnormal : Normal bounds r)
    (hs : multiply bounds (p :: withFactor d gs) = .ok s) (hsnormal : Normal bounds s) :
    d • r.combination unit value = c • s.combination unit value := by
  obtain ⟨k, qs, hconstant, hall⟩ := exists_assemble hc hr
  obtain rfl := Except.ok.inj (hr.symm.trans (hall c hc))
  obtain rfl := Except.ok.inj (hs.symm.trans (hall d hd))
  by_cases hk : k = 0
  · have hzero (e : Rat) : (assemble (e * k) qs).combination unit value = 0 := by
      rw [hk, mul_zero]
      unfold assemble
      rw [if_pos rfl]
      exact (combination_constant unit value 0).trans (zero_smul _ _)
    rw [hzero, hzero, smul_zero, smul_zero]
  · exact smul_eq_of_mul hk (combination_assemble hconstant (mul_ne_zero hc hk)
      (mul_ne_zero hd hk) hrnormal hsnormal)

end Canonical

end ClosedForm
