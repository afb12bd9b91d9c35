import ClosedForm.Proofs.Calculus.Evaluation
import Mathlib.Algebra.DualNumber
import Mathlib.FieldTheory.IsAlgClosed.AlgebraicClosure
import Mathlib.RingTheory.PowerSeries.Inverse

/-!
# Dual numbers and power series

An `Analysis` is a meaning of the functions in a field: `sin`, `cos` and `exp` at every number,
`tan` and `ln` where they are defined, with the laws that the rules use. Each function has a first
order `Analysis.expansion` at a number. It extends the functions to dual numbers
(`Analysis.dual`), where it is the whole of `f (a + b*ε)`, and to power series
(`Analysis.series`), where the part of the argument without a constant term takes the place of
`b*ε`.

Dual numbers are not a field, so the rules say nothing about them. Power series embed into one, and
there the extended functions still obey all laws of an `Interpretation`
(`Analysis.interpretation`): the expansions of `exp` and `ln` undo each other on whole series and
not only to first order. The dual number of a series is its `jet`.
-/

namespace ClosedForm

open PowerSeries (C X constantCoeff)

/-- The functions on a field. -/
structure Analysis (K : Type*) [Field K] where
  sin : K → K
  cos : K → K
  exp : K → K
  tan : K → Option K
  ln : K → Option K
  sin_zero : sin 0 = 0
  cos_zero : cos 0 = 1
  exp_zero : exp 0 = 1
  tan_zero : ∀ y, tan 0 = some y → y = 0
  ln_one : ∀ y, ln 1 = some y → y = 0
  sin_neg : ∀ a, sin (-a) = -sin a
  cos_neg : ∀ a, cos (-a) = cos a
  tan_neg : ∀ a y, tan (-a) = some y → tan a = some (-y)
  exp_ln : ∀ a y, ln a = some y → exp y = a
  ln_exp : ∀ a y, ln (exp a) = some y → y = a
  tan_of_cos_eq_zero : ∀ a, cos a = 0 → tan a = none
  ln_zero : ln 0 = none

namespace Analysis

variable {K : Type*} [Field K] (A : Analysis K)

/-- The value of a function at `a`, and the factor that an infinitesimal part of the argument has in
the value. -/
def expansion (f : Func) (a : K) : Option (K × K) :=
  match f with
  | .sin => some (A.sin a, A.cos a)
  | .cos => some (A.cos a, -A.sin a)
  | .tan => (A.tan a).map fun y => (y, (A.cos a ^ 2)⁻¹)
  | .exp => some (A.exp a, A.exp a)
  | .ln => (A.ln a).map fun y => (y, a⁻¹)
  | .imaginaryUnit => none

open Classical in
/-- The functions and the reciprocals of the field. -/
noncomputable def functions : Functions K where
  apply f a := (A.expansion f a).map Prod.fst
  inverse a := if a = 0 then none else some a⁻¹

open Classical in
/-- The functions on dual numbers: `f (a + b*ε) = y + b*d*ε` with the expansion `(y, d)` of `f` at
`a`. -/
noncomputable def dual : Functions (DualNumber K) where
  apply f z := (A.expansion f z.fst).map fun t =>
    TrivSqZeroExt.inl t.1 + TrivSqZeroExt.inr (z.snd * t.2)
  inverse z := if z.fst = 0 then none else some z⁻¹

/-- A series with the constant term `y` that grows `d` times as fast as `p`. -/
noncomputable def tangent (y d : K) (p : PowerSeries K) : PowerSeries K :=
  C y + C d * (p - C (constantCoeff p))

open Classical in
/-- The functions on power series. -/
noncomputable def series : Functions (PowerSeries K) where
  apply f p := (A.expansion f (constantCoeff p)).map fun t => tangent t.1 t.2 p
  inverse p := if constantCoeff p = 0 then none else some p⁻¹

variable {A}

theorem ne_zero_of_ln {a y : K} (h : A.ln a = some y) : a ≠ 0 := by
  rintro rfl
  rw [A.ln_zero] at h
  cases h

theorem cos_ne_zero_of_tan {a y : K} (h : A.tan a = some y) : A.cos a ≠ 0 := by
  intro hzero
  rw [A.tan_of_cos_eq_zero a hzero] at h
  cases h

/-! ## Tangents -/

theorem constantCoeff_tangent (y d : K) (p : PowerSeries K) :
    constantCoeff (tangent y d p) = y := by
  simp [tangent]

/-- The chain rule. -/
theorem tangent_tangent (y d y' d' : K) (p : PowerSeries K) :
    tangent y' d' (tangent y d p) = tangent y' (d' * d) p := by
  rw [tangent, constantCoeff_tangent, tangent, tangent, map_mul]
  ring

theorem tangent_neg (y d : K) (p : PowerSeries K) : tangent (-y) d (-p) = -tangent y d p := by
  simp only [tangent, map_neg]
  ring

theorem tangent_self (p : PowerSeries K) : tangent (constantCoeff p) 1 p = p := by
  simp [tangent]

theorem tangent_C (y d a : K) : tangent y d (C a) = C y := by
  simp [tangent]

theorem series_apply_eq_some {f : Func} {p q : PowerSeries K} :
    A.series.apply f p = some q ↔
      ∃ t, A.expansion f (constantCoeff p) = some t ∧ tangent t.1 t.2 p = q :=
  Option.map_eq_some_iff

/-! ## Jets -/

/-- The terms of a power series up to the first order. -/
noncomputable def jet : PowerSeries K →+* DualNumber K where
  toFun p := TrivSqZeroExt.inl (constantCoeff p) + TrivSqZeroExt.inr (PowerSeries.coeff 1 p)
  map_one' := by ext <;> simp [PowerSeries.coeff_one]
  map_mul' p q := by
    ext
    · simp
    · simp [PowerSeries.coeff_one_mul]
      ring
  map_zero' := by ext <;> simp
  map_add' p q := by ext <;> simp

@[simp] theorem fst_jet (p : PowerSeries K) : (jet p).fst = constantCoeff p := by
  simp [jet]

theorem jet_C (a : K) : jet (C a) = TrivSqZeroExt.inl a := by
  ext <;> simp [jet]

theorem jet_X : jet (X : PowerSeries K) = DualNumber.eps := by
  ext <;> simp [jet]

theorem jet_tangent (y d : K) (p : PowerSeries K) :
    jet (tangent y d p) = TrivSqZeroExt.inl y + TrivSqZeroExt.inr ((jet p).snd * d) := by
  rw [tangent, map_add, map_mul, map_sub, jet_C, jet_C, jet_C]
  ext
  · simp
  · simp [mul_comm]

theorem jet_inv {p : PowerSeries K} (hp : constantCoeff p ≠ 0) : jet p⁻¹ = (jet p)⁻¹ := by
  have hfst : (jet p).fst ≠ 0 := by rwa [fst_jet]
  calc jet p⁻¹ = (jet p)⁻¹ * jet p * jet p⁻¹ := by rw [TrivSqZeroExt.inv_mul_cancel hfst, one_mul]
    _ = (jet p)⁻¹ * jet (p * p⁻¹) := by rw [map_mul, mul_assoc]
    _ = (jet p)⁻¹ := by rw [PowerSeries.mul_inv_cancel p hp, map_one, mul_one]

/-! ## Assignments -/

section Assignments

variable (σ : String → K) (name : String)

/-- The symbols at `σ`, with an infinitesimal added to one of them. -/
def nearby (other : String) : DualNumber K :=
  TrivSqZeroExt.inl (σ other) + if other == name then DualNumber.eps else 0

theorem fst_nearby (other : String) : (nearby σ name other).fst = σ other := by
  unfold nearby
  split <;> simp

theorem snd_nearby (other : String) :
    (nearby σ name other).snd = if other == name then 1 else 0 := by
  unfold nearby
  split <;> simp

/-- The symbols at `σ` as power series, with the variable added to one of them. -/
noncomputable def moving (other : String) : PowerSeries K :=
  C (σ other) + if other == name then X else 0

theorem constantCoeff_moving (other : String) :
    constantCoeff (moving σ name other) = σ other := by
  unfold moving
  split <;> simp

theorem jet_moving (other : String) : jet (moving σ name other) = nearby σ name other := by
  unfold moving nearby
  split <;> simp [jet_C, jet_X]

end Assignments

/-! ## Related functions -/

section Relations

variable [CharZero K]

/-- The series of an expression has its value as the constant term. -/
theorem functions_series : A.functions.Related A.series fun a p => constantCoeff p = a where
  constant c := by simp
  add := by rintro _ _ p p' rfl rfl; exact map_add _ p p'
  mul := by rintro _ _ p p' rfl rfl; exact map_mul _ p p'
  apply := by
    rintro f _ _ p rfl hy
    obtain ⟨t, ht, rfl⟩ := Option.map_eq_some_iff.mp hy
    exact ⟨_, series_apply_eq_some.mpr ⟨t, ht, rfl⟩, constantCoeff_tangent _ _ p⟩
  inverse := by
    rintro _ _ p rfl hy
    simp only [functions, Option.ite_none_left_eq_some, Option.some.injEq] at hy
    obtain ⟨hne, rfl⟩ := hy
    exact ⟨p⁻¹, if_neg hne, PowerSeries.constantCoeff_inv p⟩

/-- The dual number of an expression is the jet of its series. -/
theorem series_dual : A.series.Related A.dual fun p z => jet p = z where
  constant c := by
    simp only [RingHom.map_rat_algebraMap]
  add := by rintro p p' _ _ rfl rfl; exact map_add _ p p'
  mul := by rintro p p' _ _ rfl rfl; exact map_mul _ p p'
  apply := by
    rintro f p _ _ rfl hq
    obtain ⟨t, ht, rfl⟩ := series_apply_eq_some.mp hq
    refine ⟨_, Option.map_eq_some_iff.mpr ⟨t, ?_, rfl⟩, jet_tangent t.1 t.2 p⟩
    rwa [fst_jet]
  inverse := by
    rintro p _ _ rfl hq
    simp only [series, Option.ite_none_left_eq_some, Option.some.injEq] at hq
    obtain ⟨hne, rfl⟩ := hq
    exact ⟨_, if_neg (by rwa [fst_jet]), jet_inv hne⟩

/-- The value of an expression is the part of its dual number without `ε`. -/
theorem dual_functions : A.dual.Related A.functions fun z a => z.fst = a where
  constant c := by
    rw [← RingHom.map_rat_algebraMap jet c, fst_jet]
    simp
  add := by rintro z z' _ _ rfl rfl; exact TrivSqZeroExt.fst_add z z'
  mul := by rintro z z' _ _ rfl rfl; exact TrivSqZeroExt.fst_mul z z'
  apply := by
    rintro f z _ _ rfl hw
    obtain ⟨t, ht, rfl⟩ := Option.map_eq_some_iff.mp hw
    exact ⟨t.1, Option.map_eq_some_iff.mpr ⟨t, ht, rfl⟩, by simp⟩
  inverse := by
    rintro z _ _ rfl hw
    simp only [dual, Option.ite_none_left_eq_some, Option.some.injEq] at hw
    obtain ⟨hne, rfl⟩ := hw
    exact ⟨_, if_neg hne, TrivSqZeroExt.fst_inv z⟩

end Relations

end Analysis

/-! ## Integer powers -/

section IntegerPower

variable {F : Type*} [Field F]

open Classical in
/-- The power to an integer. -/
noncomputable def integerPower (b u : F) : Option F :=
  if h : ∃ n : ℤ, u = n ∧ (b ≠ 0 ∨ 0 ≤ n) then some (b ^ h.choose) else none

variable [CharZero F]

theorem integerPower_eq_some {b u x : F} :
    integerPower b u = some x ↔ ∃ n : ℤ, u = n ∧ (b ≠ 0 ∨ 0 ≤ n) ∧ b ^ n = x := by
  unfold integerPower
  split
  · next h =>
    obtain ⟨hu, hdefined⟩ := h.choose_spec
    rw [Option.some.injEq]
    constructor
    · exact fun hx => ⟨_, hu, hdefined, hx⟩
    · rintro ⟨n, hn, -, rfl⟩
      rw [Int.cast_injective (hu.symm.trans hn)]
  · next h =>
    simp only [reduceCtorEq, false_iff]
    exact fun ⟨n, hn, hdefined, _⟩ => h ⟨n, hn, hdefined⟩

theorem integerPower_int {b : F} {n : ℤ} (h : b ≠ 0 ∨ 0 ≤ n) :
    integerPower b n = some (b ^ n) :=
  integerPower_eq_some.mpr ⟨n, rfl, h, rfl⟩

/-- Zero has no negative powers. -/
theorem integerPower_zero {n : ℤ} (hn : n < 0) : integerPower (0 : F) n = none := by
  refine Option.eq_none_iff_forall_ne_some.mpr fun x hx => ?_
  obtain ⟨m, hm, hdefined, -⟩ := integerPower_eq_some.mp hx
  cases Int.cast_injective hm
  rcases hdefined with hne | hn'
  · exact hne rfl
  · omega

theorem integerPower_add {b u v x y : F} (hx : integerPower b u = some x)
    (hy : integerPower b v = some y) : integerPower b (u + v) = some (x * y) := by
  obtain ⟨m, rfl, hm, rfl⟩ := integerPower_eq_some.mp hx
  obtain ⟨n, rfl, hn, rfl⟩ := integerPower_eq_some.mp hy
  rw [← Int.cast_add]
  by_cases hb : b = 0
  · have hm' := hm.resolve_left (not_not.mpr hb)
    have hn' := hn.resolve_left (not_not.mpr hb)
    rw [integerPower_int (.inr (add_nonneg hm' hn'))]
    lift m to ℕ using hm'
    lift n to ℕ using hn'
    norm_cast
    rw [pow_add]
  · rw [integerPower_int (.inl hb), zpow_add₀ hb]

theorem integerPower_pow {b u : F} {n : ℤ} {x y : F} (hx : integerPower b u = some x)
    (hy : integerPower x n = some y) : integerPower b (u * n) = some y := by
  obtain ⟨m, rfl, hm, rfl⟩ := integerPower_eq_some.mp hx
  obtain ⟨k, hk, hn, rfl⟩ := integerPower_eq_some.mp hy
  cases Int.cast_injective hk
  rw [← Int.cast_mul, ← zpow_mul]
  refine integerPower_int ?_
  by_cases hb : b = 0
  · -- A positive power of zero is zero, which has no negative power.
    have hm' := hm.resolve_left (not_not.mpr hb)
    rcases hm'.eq_or_lt with rfl | hpos
    · exact .inr (by simp)
    · rw [hb, zero_zpow _ hpos.ne'] at hn
      exact .inr (mul_nonneg hm' (hn.resolve_left (not_not.mpr rfl)))
  · exact .inl hb

/-- An exponent with an integer power is an integer. -/
theorem den_eq_one_of_integerPower {b x : F} {q : ℚ} (h : integerPower b q = some x) :
    q.den = 1 := by
  obtain ⟨n, hn, -, -⟩ := integerPower_eq_some.mp h
  have hq : q = n := by exact_mod_cast hn
  rw [hq, Rat.den_intCast]

end IntegerPower

/-! ## The functions on a field of series -/

namespace Analysis

variable {K : Type*} [Field K] {A : Analysis K} {F : Type*} [Field F] {ι : PowerSeries K →+* F}
  (hι : Function.Injective ι)

open Classical in
/-- A function where the argument is a power series. -/
noncomputable def lifted (A : Analysis K) (ι : PowerSeries K →+* F) (f : Func) (u : F) : Option F :=
  if h : ∃ p, ι p = u then (A.series.apply f h.choose).map ι else none

include hι

theorem lifted_apply (f : Func) (p : PowerSeries K) :
    A.lifted ι f (ι p) = (A.series.apply f p).map ι := by
  have h : ∃ q, ι q = ι p := ⟨p, rfl⟩
  rw [lifted, dif_pos h, hι h.choose_spec]

omit hι in
theorem exists_of_lifted {f : Func} {u v : F} (h : A.lifted ι f u = some v) :
    ∃ p t, ι p = u ∧ A.expansion f (constantCoeff p) = some t ∧ ι (tangent t.1 t.2 p) = v := by
  unfold lifted at h
  split at h
  · next hp =>
    obtain ⟨q, hq, rfl⟩ := Option.map_eq_some_iff.mp h
    obtain ⟨t, ht, rfl⟩ := series_apply_eq_some.mp hq
    exact ⟨_, t, hp.choose_spec, ht, rfl⟩
  · cases h

theorem lifted_eq_some {f : Func} {p : PowerSeries K} {v : F} :
    A.lifted ι f (ι p) = some v ↔
      ∃ t, A.expansion f (constantCoeff p) = some t ∧ ι (tangent t.1 t.2 p) = v := by
  rw [lifted_apply hι, Option.map_eq_some_iff]
  simp only [series_apply_eq_some]
  exact ⟨fun ⟨_, ⟨t, ht, hq⟩, hv⟩ => ⟨t, ht, hq ▸ hv⟩, fun ⟨t, ht, hv⟩ => ⟨_, ⟨t, ht, rfl⟩, hv⟩⟩

/-- A function with a value at `a` has that value at the constant series `a`. -/
theorem lifted_constant {f : Func} {a : K} {v : F} (h : A.lifted ι f (ι (C a)) = some v) :
    ∃ t, A.expansion f a = some t ∧ ι (C t.1) = v := by
  obtain ⟨t, ht, hv⟩ := (lifted_eq_some hι).mp h
  rw [PowerSeries.constantCoeff_C] at ht
  rw [tangent_C] at hv
  exact ⟨t, ht, hv⟩

theorem lifted_zero {f : Func} {v : F} (h : A.lifted ι f 0 = some v) :
    ∃ t, A.expansion f 0 = some t ∧ ι (C t.1) = v :=
  lifted_constant hι (by simpa using h)

theorem lifted_one {f : Func} {v : F} (h : A.lifted ι f 1 = some v) :
    ∃ t, A.expansion f 1 = some t ∧ ι (C t.1) = v :=
  lifted_constant hι (by simpa using h)

/-- A function whose expansions at opposite numbers are opposite is odd. -/
theorem lifted_odd {f : Func}
    (hodd : ∀ a t, A.expansion f (-a) = some t → A.expansion f a = some (-t.1, t.2)) {u v : F}
    (h : A.lifted ι f (-u) = some v) : A.lifted ι f u = some (-v) := by
  obtain ⟨p, t, hp, ht, rfl⟩ := exists_of_lifted h
  obtain rfl : ι (-p) = u := by rw [map_neg, hp, neg_neg]
  refine (lifted_eq_some hι).mpr ⟨(-t.1, t.2), ?_, by rw [tangent_neg, map_neg]⟩
  rw [map_neg]
  exact hodd _ t (by rwa [neg_neg])

/-- A function with the same value and the opposite slope at opposite numbers is even. -/
theorem lifted_even {f : Func}
    (heven : ∀ a t, A.expansion f (-a) = some t → A.expansion f a = some (t.1, -t.2)) {u v : F}
    (h : A.lifted ι f (-u) = some v) : A.lifted ι f u = some v := by
  obtain ⟨p, t, hp, ht, rfl⟩ := exists_of_lifted h
  obtain rfl : ι (-p) = u := by rw [map_neg, hp, neg_neg]
  refine (lifted_eq_some hι).mpr ⟨(t.1, -t.2), ?_, congrArg ι ?_⟩
  · rw [map_neg]
    exact heven _ t (by rwa [neg_neg])
  · simp only [tangent, map_neg]
    ring

/-- A function that takes the value of another one back to the number, with the reciprocal slope, is
its inverse on series. -/
theorem lifted_inverse {f g : Func}
    (hinverse : ∀ a t t', A.expansion f a = some t → A.expansion g t.1 = some t' →
      t'.1 = a ∧ t'.2 * t.2 = 1) {u v w : F} (hf : A.lifted ι f u = some v)
    (hg : A.lifted ι g v = some w) : w = u := by
  obtain ⟨p, t, rfl, ht, rfl⟩ := exists_of_lifted hf
  obtain ⟨t', ht', rfl⟩ := (lifted_eq_some hι).mp hg
  rw [constantCoeff_tangent] at ht'
  obtain ⟨hvalue, hslope⟩ := hinverse _ t t' ht ht'
  rw [tangent_tangent, hvalue, hslope, tangent_self]

/-- The functions on a field that the power series embed into, with integer powers. -/
noncomputable def interpretation [CharZero F] (A : Analysis K) (i : F) (hi : i ^ 2 = -1) :
    Interpretation F where
  i := i
  sin := A.lifted ι .sin
  cos := A.lifted ι .cos
  tan := A.lifted ι .tan
  exp := A.lifted ι .exp
  ln := A.lifted ι .ln
  pow := integerPower
  i_sq := hi
  sin_zero x h := by
    obtain ⟨t, ht, rfl⟩ := lifted_zero hι h
    cases ht
    simp [A.sin_zero]
  cos_zero x h := by
    obtain ⟨t, ht, rfl⟩ := lifted_zero hι h
    cases ht
    simp [A.cos_zero]
  tan_zero x h := by
    obtain ⟨t, ht, rfl⟩ := lifted_zero hι h
    obtain ⟨y, hy, rfl⟩ := Option.map_eq_some_iff.mp ht
    simp [A.tan_zero y hy]
  exp_zero x h := by
    obtain ⟨t, ht, rfl⟩ := lifted_zero hι h
    cases ht
    simp [A.exp_zero]
  ln_one x h := by
    obtain ⟨t, ht, rfl⟩ := lifted_one hι h
    obtain ⟨y, hy, rfl⟩ := Option.map_eq_some_iff.mp ht
    simp [A.ln_one y hy]
  sin_neg u x h := by
    refine lifted_odd hι (fun a t ht => ?_) h
    cases ht
    simp [expansion, A.sin_neg, A.cos_neg]
  cos_neg u x h := by
    refine lifted_even hι (fun a t ht => ?_) h
    cases ht
    simp [expansion, A.sin_neg, A.cos_neg]
  tan_neg u x h := by
    refine lifted_odd hι (fun a t ht => ?_) h
    obtain ⟨y, hy, rfl⟩ := Option.map_eq_some_iff.mp ht
    exact Option.map_eq_some_iff.mpr ⟨-y, A.tan_neg a y hy, by rw [A.cos_neg]⟩
  exp_ln u x y hx hy := by
    refine lifted_inverse hι (fun a t t' ht ht' => ?_) hx hy
    obtain ⟨l, hl, rfl⟩ := Option.map_eq_some_iff.mp ht
    cases ht'
    simp [A.exp_ln a l hl, ne_zero_of_ln hl]
  ln_exp u x y hx hy := by
    refine lifted_inverse hι (fun a t t' ht ht' => ?_) hx hy
    cases ht
    obtain ⟨l, hl, rfl⟩ := Option.map_eq_some_iff.mp ht'
    exact ⟨A.ln_exp a l hl, inv_mul_cancel₀ (ne_zero_of_ln hl)⟩
  pow_int b n h := integerPower_int h
  zero_pow_neg n hn := integerPower_zero hn
  one_pow u x h := by
    obtain ⟨n, -, -, rfl⟩ := integerPower_eq_some.mp h
    exact one_zpow n
  pow_add b u v x y := integerPower_add
  pow_pow b u n x y := integerPower_pow
  pow_root b q r x hroot h := by
    have hden := den_eq_one_of_integerPower h
    rw [hden] at hroot
    rw [Rational.eq_of_root?_one hroot, ← Rational.cast_of_isInteger (by simp [Rational.isInteger, hden])]
    exact h
  sqrt_mul m d x hm hd h := by
    have hden := den_eq_one_of_integerPower h
    norm_num at hden

section Relations

variable [CharZero F] {i : F} (hi : i ^ 2 = -1)

theorem interpretation_apply (f : Func) (u : F) :
    (interpretation hι A i hi).apply f u = A.lifted ι f u := by
  cases f with
  | imaginaryUnit =>
    cases h : A.lifted ι .imaginaryUnit u with
    | none => rfl
    | some v =>
      obtain ⟨_, _, -, ht, -⟩ := exists_of_lifted h
      cases ht
  | _ => rfl

variable [CharZero K]

/-- The interpretation has the series of an expression as its value. -/
theorem series_interpretation :
    A.series.Related (interpretation hι A i hi).functions fun p u => ι p = u where
  constant c := RingHom.map_rat_algebraMap ι c
  add := by rintro p p' _ _ rfl rfl; exact map_add ι p p'
  mul := by rintro p p' _ _ rfl rfl; exact map_mul ι p p'
  apply := by
    rintro f p q _ rfl hq
    refine ⟨ι q, ?_, rfl⟩
    show (interpretation hι A i hi).apply f (ι p) = _
    rw [interpretation_apply hι hi, lifted_apply hι, hq]
    rfl
  inverse := by
    rintro p _ _ rfl hq
    simp only [series, Option.ite_none_left_eq_some, Option.some.injEq] at hq
    obtain ⟨hne, rfl⟩ := hq
    have hproduct : ι p * ι p⁻¹ = 1 := by
      rw [← map_mul, PowerSeries.mul_inv_cancel p hne, map_one]
    exact ⟨_, Interpretation.functions_inverse_eq_some.mpr
      ⟨left_ne_zero_of_mul_eq_one hproduct, rfl⟩, eq_inv_of_mul_eq_one_right hproduct⟩

/-- At constants the interpretation has no values but those of the field. -/
theorem interpretation_functions :
    (interpretation hι A i hi).functions.Related A.functions fun u a => ι (C a) = u where
  constant c := RingHom.map_rat_algebraMap (ι.comp C) c
  add := by rintro _ _ a a' rfl rfl; exact map_add (ι.comp C) a a'
  mul := by rintro _ _ a a' rfl rfl; exact map_mul (ι.comp C) a a'
  apply := by
    rintro f _ v a rfl hv
    have hv : (interpretation hι A i hi).apply f (ι (C a)) = some v := hv
    rw [interpretation_apply hι hi] at hv
    obtain ⟨t, ht, rfl⟩ := lifted_constant hι hv
    exact ⟨t.1, Option.map_eq_some_iff.mpr ⟨t, ht, rfl⟩, rfl⟩
  inverse := by
    rintro _ _ a rfl hv
    obtain ⟨hne, rfl⟩ := Interpretation.functions_inverse_eq_some.mp hv
    exact ⟨a⁻¹, if_neg fun hzero => hne (by rw [hzero, map_zero, map_zero]),
      map_inv₀ (ι.comp C) a⟩

end Relations

end Analysis

/-- Power series embed into a field with a square root of `-1`. -/
theorem exists_field_of_series (K : Type u) [Field K] [CharZero K] :
    ∃ (F : Type u) (_ : Field F) (_ : CharZero F) (ι : PowerSeries K →+* F) (i : F),
      Function.Injective ι ∧ i ^ 2 = -1 := by
  have hseries : CharZero (PowerSeries K) :=
    charZero_of_injective_algebraMap (R := K) PowerSeries.C_injective
  have hfractions : Function.Injective (algebraMap (PowerSeries K) (FractionRing (PowerSeries K))) :=
    IsFractionRing.injective _ _
  have : CharZero (FractionRing (PowerSeries K)) := charZero_of_injective_algebraMap hfractions
  obtain ⟨i, hi⟩ := IsAlgClosed.exists_pow_nat_eq
    (-1 : AlgebraicClosure (FractionRing (PowerSeries K))) zero_lt_two
  refine ⟨AlgebraicClosure (FractionRing (PowerSeries K)), inferInstance, inferInstance,
    (algebraMap _ _).comp (algebraMap (PowerSeries K) (FractionRing (PowerSeries K))), i, ?_, hi⟩
  rw [RingHom.coe_comp]
  exact (RingHom.injective _).comp hfractions

end ClosedForm
