import ClosedForm.Proofs.Expansion.Rules
import ClosedForm.Proofs.Normal.Divisors
import ClosedForm.Proofs.Outcomes
import ClosedForm.Proofs.Reduction
import ClosedForm.Solve.Univariate

/-!
# Square roots of rationals

A rational that is a square has its root found (`Rational.sqrt?_eq_some`). Any other rational has a
canonical square root that is a term, with `i` in front for a negative number
(`exists_squareRoot`): one pass computes it, and under the complex interpretation its square is the
number.
-/

namespace ClosedForm

open ClosedForm.Expr Canonical

/-- The square root is found exactly for the squares. -/
theorem Rational.sqrt?_eq_some {q r : Rat} : sqrt? q = some r ↔ 0 ≤ r ∧ r * r = q := by
  unfold sqrt?
  constructor
  · intro h
    rcases lt_trichotomy q 0 with hneg | rfl | hpos
    · simp [root?, hneg] at h
    · rw [root?_zero two_ne_zero] at h
      cases h
      exact ⟨le_rfl, mul_zero 0⟩
    · obtain ⟨hsquare, hr⟩ := pow_of_root? hpos h
      exact ⟨hr.le, (pow_two r).symm.trans hsquare⟩
  · rintro ⟨hr, rfl⟩
    rcases hr.eq_or_lt with rfl | hr
    · rw [mul_zero]
      exact root?_zero two_ne_zero
    · exact root?_mul_self hr

theorem Rational.sqrt?_one : sqrt? 1 = some 1 :=
  sqrt?_eq_some.mpr ⟨zero_le_one, mul_one 1⟩

/-- Squares have roots, whatever the sign of what is squared. -/
theorem Rational.exists_sqrt?_mul_self (s : Rat) : ∃ r, sqrt? (s * s) = some r :=
  ⟨|s|, sqrt?_eq_some.mpr ⟨abs_nonneg s, abs_mul_abs_self s⟩⟩

variable {bounds : Bounds}

/-! ## Expressions that reduce -/

namespace Canonical

/-- What reduces to a form has the value of the form. -/
theorem Reduces.value {K : Type*} [Field K] [CharZero K] {M : Interpretation K} {σ : String → K}
    {e c : Expr} (h : Reduces bounds e c) {x : K} (hx : M.value σ e = some x) :
    M.value σ c = some x := by
  have hyields : Yields M σ bounds (Canonical.pass bounds .empty e) x :=
    yields_pass bounds (fun _ _ hfind => by cases hfind) e hx
  rwa [h.pass] at hyields

theorem Reduces.inverse {e : Expr} {q : Rat} (he : Reduces bounds e (.constant q)) (hq : q ≠ 0)
    (hlimit : 1 ≤ bounds.maxExactExponent) :
    Reduces bounds (.inverse e) (.constant (1 / q)) := by
  refine .pow he (Reduces.constant _) ?_ (.constant _)
  have hminus : ((-1 : Int) : Rat) = -1 := by norm_num
  rw [hminus]
  exact power_constant_neg_one hlimit hq

/-- The opposite of a constant. -/
theorem reduces_neg (q : Rat) : Reduces bounds (.neg (.constant q)) (.constant (-q)) := by
  have hneg : Reduces bounds (.neg (.constant q)) (.constant [((-1 : Int) : Rat), q].prod) :=
    .mul_constants (.cons (Reduces.constant _) (.cons (Reduces.constant q) .nil))
  simpa using hneg

/-- A constant multiplies a normal expression to a normal one. -/
theorem exists_multiply_constant {s : Expr} (hs : Normal bounds s) {q : Rat} (hq : q ≠ 0) :
    ∃ r, multiply bounds [s, .constant q] = .ok r ∧ Normal bounds r := by
  cases hconstant : s.isConstant with
  | true =>
    obtain ⟨p, rfl⟩ := isConstant_iff.mp hconstant
    exact ⟨_, multiply_constants q p, .constant _⟩
  | false =>
    cases hadd : s.isAdd with
    | true =>
      cases s with
      | add ts =>
        have hproper : proper (factorsList [.add ts, .constant q]) = [.add ts] := rfl
        have hcoefficient : constantPart (factorsList [.add ts, .constant q]) = q := by
          simp [factorsList, Expr.factors, constantPart]
        refine ⟨_, multiply_of_distinct hq hcoefficient ?_ ?_, ?_⟩ <;> rw [hproper]
        · simpa using hs
        · simp
        · exact normal_assemble q (by simpa using hs) (by simp [isConstant, constant?])
            (by simp [isMul]) (by simp)
      | _ => cases hadd
    | false =>
      obtain ⟨c, gs, hc, hshape, hgs, rfl⟩ := hs.exists_term hconstant hadd
      have hterm : IsTerm bounds (c * q) gs := ⟨mul_ne_zero hc hq, hgs, .inr hshape⟩
      have hcollects := (collects_term hshape c).append (collects_constant q)
      rw [List.append_nil] at hcollects
      exact ⟨_, hterm.multiply hcollects, hterm.normal⟩

/-! ## Square roots -/

theorem half_eq : Solve.half = .constant (1 / 2) := by
  unfold Solve.half
  rw [Rat.mkRat_eq_div]
  norm_num

theorem power_half {b : Rat} (hone : b ≠ 1) :
    power bounds (.constant b) (.constant (1 / 2)) =
      constantPower bounds (multiplyWith (power bounds)) b (1 / 2) := by
  rw [power_eq]
  unfold powerStep
  rw [if_neg (by simp [isZero, isOne, hone]), if_neg (by simp [isOne])]

/-- A square root that is no rational is a coefficient in front of a root that is kept. -/
theorem exists_term_radical {b : Rat} (hb : 0 < b) (hlimit : 1 ≤ bounds.maxExactExponent)
    (hroot : Rational.sqrt? b = none) :
    ∃ c d, IsTerm bounds c [.pow (.constant d) (.constant (1 / 2))] ∧
      radical b (1 / 2) = Expr.product (withFactor c [.pow (.constant d) (.constant (1 / 2))]) := by
  have hkept : ∀ d, Kept bounds d (1 / 2) → d ≠ 1 →
      ∀ c, c ≠ 0 → IsTerm bounds c [.pow (.constant d) (.constant (1 / 2))] := by
    intro d hd hone c hc
    have hshape : PowerShape bounds (.constant d) (.constant (1 / 2)) :=
      .kept hone (by norm_num) (by norm_num) hd
    exact ⟨hc, by simpa using Normal.pow (.constant d) (.constant _) hshape,
      .inr (factorShape_singleton rfl rfl rfl)⟩
  have hone : ∀ d, Kept bounds d (1 / 2) → d ≠ 1 := by
    rintro _ hd rfl
    unfold Kept basicPower at hd
    rw [constantPower_half_of_root one_ne_zero hlimit Rational.sqrt?_one] at hd
    cases hd
  rcases radical_eq hb hlimit hroot with heq | ⟨c, d, hc, hc0, -, hd, heq⟩
  · have hb' : Kept bounds b (1 / 2) := by
      unfold Kept basicPower
      rw [constantPower_half hb hlimit hroot, heq]
    exact ⟨1, b, hkept b hb' (hone b hb') 1 one_ne_zero, heq⟩
  · exact ⟨c, d, hkept d hd (hone d hd) c hc0, by rw [withFactor_of_ne hc]; exact heq⟩

/-- The square root of a positive rational reduces to a term, a constant where it is rational. -/
theorem exists_reduces_half {e : Expr} {b : Rat} (he : Reduces bounds e (.constant b)) (hb : 0 < b)
    (hlimit : 1 ≤ bounds.maxExactExponent) :
    ∃ c gs, IsTerm bounds c gs ∧ .imaginaryUnit ∉ gs.map factorBase ∧
      Reduces bounds (.pow e Solve.half) (Expr.product (withFactor c gs)) := by
  rw [half_eq]
  cases hroot : Rational.sqrt? b with
  | some r =>
    obtain ⟨hr, rfl⟩ := Rational.sqrt?_eq_some.mp hroot
    have hne : r ≠ 0 := by
      rintro rfl
      simp at hb
    have hterm : IsTerm bounds r [] := .constant hne
    refine ⟨r, [], hterm, by simp, .pow he (Reduces.constant _) ?_ hterm.normal⟩
    rw [product_withFactor_nil]
    by_cases hone : r * r = 1
    · obtain rfl : r = 1 := by nlinarith
      rw [one_mul, power_eq]
      unfold powerStep
      rw [if_pos (by simp [isOne])]
      rfl
    · rw [power_half hone]
      exact constantPower_half_of_root hb.ne' hlimit hroot
  | none =>
    have hone : b ≠ 1 := by
      rintro rfl
      cases hroot.symm.trans Rational.sqrt?_one
    obtain ⟨c, d, hterm, hradical⟩ := exists_term_radical hb hlimit hroot
    refine ⟨c, _, hterm, by simp [factorBase, Expr.imaginaryUnit],
      .pow he (Reduces.constant _) ?_ hterm.normal⟩
    rw [power_half hone, constantPower_half hb hlimit hroot, hradical]

/-- A term without the imaginary unit times it. -/
theorem reduces_mul_imaginaryUnit {e : Expr} {c : Rat} {gs : List Expr} (h : IsTerm bounds c gs)
    (hunit : Expr.imaginaryUnit ∉ gs.map factorBase)
    (he : Reduces bounds e (Expr.product (withFactor c gs))) :
    ∃ hs, IsTerm bounds c hs ∧
      Reduces bounds (.mul [e, .imaginaryUnit]) (Expr.product (withFactor c hs)) := by
  have hfactors : (∀ g ∈ gs, g.isConstant = false) ∧ (∀ g ∈ gs, g.isMul = false) ∧
      (gs.map factorBase).Nodup := by
    rcases h.shape with rfl | hshape
    · simp
    · exact ⟨hshape.not_constant, hshape.not_mul, hshape.bases⟩
  obtain ⟨hconstant, hmul, hbases⟩ := hfactors
  have hnodup : ((gs ++ [Expr.imaginaryUnit]).map factorBase).Nodup := by
    rw [List.map_append, List.nodup_append]
    refine ⟨hbases, List.nodup_singleton _, fun a ha b hb => ?_⟩
    rintro rfl
    rw [List.map_singleton, List.mem_singleton] at hb
    rw [hb] at ha
    exact hunit ha
  have hsum : ∀ ts, gs ++ [.imaginaryUnit] ≠ [.add ts] := by
    intro ts heq
    have hmem : Expr.imaginaryUnit ∈ [Expr.add ts] := heq ▸ by simp
    simp [Expr.imaginaryUnit] at hmem
  have hshape := factorShape_sort (by simp) (List.forall_mem_append.mpr ⟨hconstant, by simp; rfl⟩)
    (List.forall_mem_append.mpr ⟨hmul, by simp; rfl⟩) hnodup hsum
  have hterm : IsTerm bounds c (Expr.sort (gs ++ [.imaginaryUnit])) := by
    refine ⟨h.ne_zero, fun g hg => ?_, .inr hshape⟩
    rcases List.mem_append.mp (mem_sort.mp hg) with hg | hg
    · exact h.factors g hg
    · rw [List.mem_singleton.mp hg]
      exact .imaginaryUnit
  have hunits : Collects [.imaginaryUnit] 1 [.imaginaryUnit] :=
    collects_of_not_mul (by simp; rfl) (by simp; rfl)
  have hcollects := (h.collects.append hunits).perm (sort_perm _).symm
  rw [mul_one] at hcollects
  exact ⟨_, hterm, .mul (.cons he (.cons Normal.imaginaryUnit.reduces .nil))
    (hterm.multiply hcollects) hterm.normal⟩

/-- The square root of a positive rational under the complex interpretation. -/
theorem exists_value_half {σ : String → ℂ} {e : Expr} {b : Rat} (hb : 0 < b)
    (he : Interpretation.complex.value σ e = some (b : ℂ)) :
    ∃ w, Interpretation.complex.value σ (.pow e Solve.half) = some w ∧ w ^ 2 = (b : ℂ) := by
  have hre : 0 < (b : ℂ).re ∧ (b : ℂ).im = 0 := by
    have : (0 : ℝ) < b := by exact_mod_cast hb
    simpa using this
  refine ⟨(b : ℂ) ^ ((1 / 2 : Rat) : ℂ), ?_, ?_⟩
  · rw [half_eq]
    exact Interpretation.value_pow_eq_some.mpr ⟨_, _, he, Interpretation.value_constant _,
      complexPower_eq_some.mpr ⟨.inl hre, rfl⟩⟩
  · have hhalf : ((1 / 2 : Rat) : ℂ) = ((2 : ℕ) : ℂ)⁻¹ := by norm_num
    rw [hhalf, Complex.cpow_nat_inv_pow _ two_ne_zero]

/-- The square root of a rational other than zero has a canonical form that is a term. Its square
under the complex interpretation is the number. -/
theorem exists_squareRoot {d : Rat} (hd : d ≠ 0) (hlimit : 1 ≤ bounds.maxExactExponent) :
    ∃ e c gs, Solve.squareRoot bounds (.constant d) = canonicalize bounds e ∧
      IsTerm bounds c gs ∧ Reduces bounds e (Expr.product (withFactor c gs)) ∧
      ∀ σ, ∃ w, Interpretation.complex.value σ e = some w ∧ w ^ 2 = d := by
  rcases hd.lt_or_gt with hneg | hpos
  · have hopposite : 0 < -d := neg_pos.mpr hneg
    obtain ⟨c, gs, hterm, hunit, hroot⟩ := exists_reduces_half (reduces_neg d) hopposite hlimit
    obtain ⟨hs, hterm', hreduces⟩ := reduces_mul_imaginaryUnit hterm hunit hroot
    refine ⟨_, c, hs, ?_, hterm', hreduces, fun σ => ?_⟩
    · unfold Solve.squareRoot
      simp [constant?, hneg]
    · obtain ⟨w, hw, hsquare⟩ := exists_value_half (σ := σ) (e := .neg (.constant d)) hopposite (by
        simp [Expr.neg, integer, Interpretation.value, Interpretation.productValue])
      refine ⟨w * Complex.I, ?_, ?_⟩
      · rw [Interpretation.value_mul]
        refine Interpretation.productValue_cons_eq_some.mpr ⟨w, Complex.I, hw, ?_, rfl⟩
        exact Interpretation.productValue_cons_eq_some.mpr ⟨Complex.I, 1, rfl, rfl, mul_one _⟩
      · rw [mul_pow, hsquare, Complex.I_sq]
        push_cast
        ring
  · obtain ⟨c, gs, hterm, -, hreduces⟩ := exists_reduces_half (Reduces.constant d) hpos hlimit
    refine ⟨_, c, gs, ?_, hterm, hreduces, fun σ =>
      exists_value_half hpos (Interpretation.value_constant d)⟩
    unfold Solve.squareRoot
    simp [constant?, hpos.le]

end Canonical

end ClosedForm
