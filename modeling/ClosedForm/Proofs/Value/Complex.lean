import ClosedForm.Proofs.Roots
import ClosedForm.Proofs.Value.Interpretation
import Mathlib.Analysis.SpecialFunctions.Complex.Log
import Mathlib.Analysis.SpecialFunctions.Pow.Real
import Mathlib.Tactic.Positivity

/-!
# The complex numbers as an interpretation

The functions on the complex numbers obey the laws of an `Interpretation`, on the domains where
their inverses are principal: `exp` on the strip that `log` maps to, powers of positive reals to
any exponent, and powers of other numbers to integer exponents.
-/

namespace ClosedForm

open Classical in
/-- The power of complex numbers where it needs no choice of a branch. -/
noncomputable def complexPower (b u : ℂ) : Option ℂ :=
  if (0 < b.re ∧ b.im = 0) ∨ ∃ n : ℤ, u = n ∧ (b ≠ 0 ∨ 0 ≤ n) then some (b ^ u) else none

theorem complexPower_eq_some {b u x : ℂ} :
    complexPower b u = some x ↔
      ((0 < b.re ∧ b.im = 0) ∨ ∃ n : ℤ, u = n ∧ (b ≠ 0 ∨ 0 ≤ n)) ∧ b ^ u = x := by
  simp [complexPower]

/-- The power of a positive rational to a rational exponent is the real one. -/
theorem cast_cpow {b q : Rat} (hb : 0 < b) :
    (b : ℂ) ^ (q : ℂ) = (((b : ℝ) ^ (q : ℝ) : ℝ) : ℂ) := by
  have hreal : (0 : ℝ) ≤ b := by exact_mod_cast hb.le
  rw [Complex.ofReal_cpow hreal]
  norm_cast

theorem complexPower_int {b : ℂ} {n : ℤ} (h : b ≠ 0 ∨ 0 ≤ n) :
    complexPower b n = some (b ^ n) :=
  complexPower_eq_some.mpr ⟨.inr ⟨n, rfl, h⟩, Complex.cpow_intCast b n⟩

theorem ne_zero_of_re_pos {b : ℂ} (h : 0 < b.re) : b ≠ 0 := by
  rintro rfl
  simp at h

theorem complexPower_add {b u v x y : ℂ} (hx : complexPower b u = some x)
    (hy : complexPower b v = some y) : complexPower b (u + v) = some (x * y) := by
  obtain ⟨hu, rfl⟩ := complexPower_eq_some.mp hx
  obtain ⟨hv, rfl⟩ := complexPower_eq_some.mp hy
  rcases hu with hpos | ⟨n, rfl, hn⟩
  · exact complexPower_eq_some.mpr ⟨.inl hpos, Complex.cpow_add u v (ne_zero_of_re_pos hpos.1)⟩
  rcases hv with hpos | ⟨m, rfl, hm⟩
  · exact complexPower_eq_some.mpr ⟨.inl hpos, Complex.cpow_add _ _ (ne_zero_of_re_pos hpos.1)⟩
  · rw [Complex.cpow_intCast, Complex.cpow_intCast, ← Int.cast_add]
    by_cases hb : b = 0
    · have hn' := hn.resolve_left (not_not.mpr hb)
      have hm' := hm.resolve_left (not_not.mpr hb)
      rw [complexPower_int (.inr (add_nonneg hn' hm'))]
      lift n to ℕ using hn'
      lift m to ℕ using hm'
      norm_cast
      rw [pow_add]
    · rw [complexPower_int (.inl hb), zpow_add₀ hb]

theorem complexPower_pow {b u : ℂ} {n : ℤ} {x y : ℂ} (hx : complexPower b u = some x)
    (hy : complexPower x n = some y) : complexPower b (u * n) = some y := by
  obtain ⟨hu, rfl⟩ := complexPower_eq_some.mp hx
  obtain ⟨hn, rfl⟩ := complexPower_eq_some.mp hy
  refine complexPower_eq_some.mpr ⟨hu.imp_right ?_, ?_⟩
  · rintro ⟨m, rfl, hm⟩
    refine ⟨m * n, by push_cast; rfl, ?_⟩
    by_cases hb : b = 0
    · have hm' := hm.resolve_left (not_not.mpr hb)
      refine .inr ?_
      rcases hm'.eq_or_lt with rfl | hpos
      · simp
      · -- A positive power of zero is zero, which has no negative power.
        rw [hb, Complex.cpow_intCast, zero_zpow _ hpos.ne'] at hn
        simp only [Complex.zero_re, lt_self_iff_false, false_and, ne_eq, not_true_eq_false,
          false_or, Int.cast_inj, exists_eq_left'] at hn
        exact mul_nonneg hm' hn
    · exact .inl hb
  · rw [Complex.cpow_mul_int, Complex.cpow_intCast]

theorem complexPower_root {b q r : Rat} {x : ℂ} (hroot : Rational.root? b q.den = some r)
    (h : complexPower (b : ℂ) (q : ℂ) = some x) :
    complexPower (r : ℂ) (q.num : ℂ) = some x := by
  by_cases hb : 0 < b
  · obtain ⟨-, rfl⟩ := complexPower_eq_some.mp h
    obtain ⟨hpow, hr⟩ := Rational.pow_of_root? hb hroot
    have hrne : (r : ℂ) ≠ 0 := by exact_mod_cast hr.ne'
    rw [complexPower_int (.inl hrne), cast_cpow hb]
    have hreal : (0 : ℝ) ≤ r := by exact_mod_cast hr.le
    have hcast : (b : ℝ) = (r : ℝ) ^ q.den := by exact_mod_cast hpow.symm
    have hexponent : (q.den : ℝ) * q = q.num := by exact_mod_cast Rat.den_mul_eq_num q
    rw [hcast, ← Real.rpow_natCast_mul hreal, hexponent, Real.rpow_intCast]
    push_cast
    rfl
  · obtain ⟨hdefined, -⟩ := complexPower_eq_some.mp h
    have hpos : ¬(0 < (b : ℂ).re ∧ (b : ℂ).im = 0) := by
      rintro ⟨hre, -⟩
      rw [Complex.ratCast_re] at hre
      exact hb (by exact_mod_cast hre)
    -- A power to another exponent is defined for positive bases only, so `q` is an integer.
    obtain ⟨n, hn, -⟩ := hdefined.resolve_left hpos
    obtain rfl : q = n := by exact_mod_cast hn
    obtain rfl : r = b := by
      have hden : ((n : Rat)).den = 1 := Rat.den_intCast n
      rw [hden] at hroot
      exact Rational.eq_of_root?_one hroot
    simpa using h

theorem complexPower_sqrt {m d : Rat} {x : ℂ} (hm : 0 < m) (hd : 0 < d)
    (h : complexPower ((m ^ 2 * d : Rat) : ℂ) ((1 / 2 : Rat) : ℂ) = some x) :
    ∃ y, complexPower (d : ℂ) ((1 / 2 : Rat) : ℂ) = some y ∧ x = m * y := by
  obtain ⟨-, rfl⟩ := complexPower_eq_some.mp h
  refine ⟨_, complexPower_eq_some.mpr ⟨.inl ⟨by simpa using hd, by simp⟩, rfl⟩, ?_⟩
  have hm' : (0 : ℝ) ≤ m := by exact_mod_cast hm.le
  have hd' : (0 : ℝ) ≤ d := by exact_mod_cast hd.le
  have hhalf : ((1 / 2 : Rat) : ℝ) = 1 / 2 := by norm_num
  rw [cast_cpow (by positivity), cast_cpow hd, hhalf]
  push_cast
  rw [Real.mul_rpow (by positivity) hd', ← Real.sqrt_eq_rpow, Real.sqrt_sq hm']
  push_cast
  rfl

open Classical in
/-- The functions on the complex numbers, as partial functions. -/
noncomputable def Interpretation.complex : Interpretation ℂ where
  i := Complex.I
  sin u := some (Complex.sin u)
  cos u := some (Complex.cos u)
  tan u := if Complex.cos u = 0 then none else some (Complex.tan u)
  exp u := if -Real.pi < u.im ∧ u.im ≤ Real.pi then some (Complex.exp u) else none
  ln u := if u = 0 then none else some (Complex.log u)
  pow := complexPower
  i_sq := Complex.I_sq
  sin_zero := by simp
  cos_zero := by simp
  tan_zero := by simp
  exp_zero := by simp
  ln_one := by simp
  sin_neg := by simp
  cos_neg := by simp
  tan_neg := by simp
  exp_ln u x y hx hy := by
    simp only [Option.ite_none_left_eq_some, Option.some.injEq] at hx
    simp only [Option.ite_none_right_eq_some, Option.some.injEq] at hy
    rw [← hy.2, ← hx.2, Complex.exp_log hx.1]
  ln_exp u x y hx hy := by
    simp only [Option.ite_none_right_eq_some, Option.some.injEq] at hx
    simp only [Option.ite_none_left_eq_some, Option.some.injEq] at hy
    rw [← hy.2, ← hx.2, Complex.log_exp hx.1.1 hx.1.2]
  pow_int _ _ h := complexPower_int h
  zero_pow_neg n hn := by
    simp [complexPower, hn]
  one_pow u x hx := by
    rw [← (complexPower_eq_some.mp hx).2, Complex.one_cpow]
  pow_add _ _ _ _ _ hx hy := complexPower_add hx hy
  pow_pow _ _ _ _ _ hx hy := complexPower_pow hx hy
  pow_root _ _ _ _ hroot h := complexPower_root hroot h
  sqrt_mul _ _ _ hm hd h := complexPower_sqrt hm hd h

end ClosedForm
