import ClosedForm.Proofs.Nesting
import ClosedForm.Proofs.Value.Products
import Mathlib.Algebra.Order.Floor.Ring
import Mathlib.Data.Rat.Floor
import Mathlib.Tactic.Positivity

/-!
# The rule for powers keeps values

Powers of constants are exact (`yields_constantPower`): integer powers are computed, exact roots
and square factors leave the power by the laws of the interpretation, and the integral part of
an exponent is split off. `yields_powerWithin` is the rule for all powers; the induction is on
its fuel.
-/

namespace ClosedForm

variable {K : Type*} [Field K] [CharZero K] {M : Interpretation K} {σ : String → K}
  {bounds : Bounds}

open Interpretation

/-! ## Exact arithmetic -/

namespace Rational

/-- A power that has a value is computed, unless its exponent is too large. -/
theorem power_spec {b : Rat} {n : Int} {x : K} (h : M.pow b n = some x) :
    match power b n with
    | .ok q => (q : K) = x
    | .error e => e = .unsupported (.exponentTooLarge n) ∧ exponentBound ≤ n.natAbs := by
  unfold power
  have hb : n < 0 → b ≠ 0 := by
    rintro hn rfl
    rw [Rat.cast_zero, M.zero_pow_neg n hn] at h
    cases h
  have hx : (b : K) ^ n = x := by
    refine Option.some.inj ((M.pow_int b n ?_).symm.trans h)
    by_cases hn : n < 0
    · exact .inl (by exact_mod_cast hb hn)
    · exact .inr (by omega)
  by_cases hlarge : exponentBound ≤ n.natAbs
  · rw [if_pos hlarge]
    exact ⟨rfl, hlarge⟩
  · rw [if_neg hlarge]
    by_cases hn : n < 0
    · rw [if_pos hn]
      have hne : Rat.pow b n.natAbs ≠ 0 := pow_ne_zero n.natAbs (hb hn)
      unfold reciprocal divide
      rw [if_neg hne]
      show ((1 / b ^ n.natAbs : Rat) : K) = x
      obtain ⟨k, rfl⟩ : ∃ k : Nat, n = -k := ⟨n.natAbs, by omega⟩
      rw [← hx, Int.natAbs_neg, Int.natAbs_natCast, zpow_neg, zpow_natCast]
      push_cast
      rw [one_div]
    · rw [if_neg hn]
      show ((b ^ n.natAbs : Rat) : K) = x
      obtain ⟨k, rfl⟩ : ∃ k : Nat, n = k := ⟨n.natAbs, by omega⟩
      rw [← hx, Int.natAbs_natCast, zpow_natCast]
      push_cast
      rfl

omit [CharZero K] in
theorem cast_of_isInteger {q : Rat} (h : isInteger q = true) : (q : K) = (q.num : K) := by
  have hden : q.den = 1 := by simpa [isInteger] using h
  rw [Rat.cast_def, hden, Nat.cast_one, div_one]

end Rational

namespace Canonical

/-! ## Powers of constants -/

theorem yields_power {b : Rat} {n : Int} {x : K} (h : M.pow b n = some x)
    (hn : n.natAbs ≤ bounds.maxExactExponent) {next : Rat → Except Error Expr} {y : K}
    (hnext : ∀ q : Rat, (q : K) = x → Yields M σ bounds (next q) y) :
    Yields M σ bounds (Rational.power b n >>= next) y := by
  have hspec := Rational.power_spec h
  cases hpower : Rational.power b n with
  | ok q => rw [hpower] at hspec; exact hnext q hspec
  | error e =>
    rw [hpower] at hspec
    exact ⟨n, hspec.1, .inr ⟨hspec.2, hn⟩⟩

/-- The radical of a positive base has the value of its square root. -/
theorem value_radical {b : Rat} {x : K} (hb : 0 < b)
    (h : M.pow b ((1 / 2 : Rat) : K) = some x) :
    M.value σ (radical b (1 / 2)) = some x := by
  obtain ⟨c, d, hc, hd, hbase, -, heq⟩ := exists_radical (1 / 2) hb
  rw [heq]
  split
  · rw [value_pow_eq_some]
    exact ⟨b, _, value_constant b, value_constant _, h⟩
  · obtain ⟨y, hy, rfl⟩ := M.sqrt_mul c d x hc (by exact_mod_cast hd) (by rw [hbase]; exact h)
    rw [value_mul, productValue_cons_eq_some]
    refine ⟨_, y, value_constant _, ?_, rfl⟩
    rw [productValue_cons_eq_some]
    refine ⟨y, 1, ?_, by rw [productValue], mul_one y⟩
    exact value_pow_eq_some.mpr ⟨_, _, value_constant _, value_constant _, hy⟩

/-- The integral part of the exponent leaves the power of a base that is not zero. -/
theorem yields_splitPower {multiply : List Expr → Except Error Expr}
    (hmultiply : ∀ fs x, M.productValue σ fs = some x → Yields M σ bounds (multiply fs) x)
    {b q : Rat} {x : K} (hb : b ≠ 0) (hlimit : q.num.natAbs ≤ bounds.maxExactExponent)
    (h : M.pow b q = some x) :
    Yields M σ bounds (Rational.power b q.floor >>= fun c => multiply (splitPower c b q)) x := by
  have hbK : (b : K) ≠ 0 := by exact_mod_cast hb
  have hwhole := M.pow_int (b : K) q.floor (.inl hbK)
  refine yields_power hwhole ((natAbs_floor_le q).trans hlimit) fun p hp => ?_
  refine hmultiply _ _ (productValue_cons_eq_some.mpr
    ⟨_, x * (b : K) ^ (-q.floor), value_constant p, ?_, ?_⟩)
  · have hrest := M.pow_add b q (-q.floor : ℤ) x _ h (M.pow_int _ (-q.floor) (.inl hbK))
    rw [productValue_cons_eq_some]
    refine ⟨_, 1, value_pow_eq_some.mpr
      ⟨b, _, value_constant b, value_constant _, ?_⟩, by rw [productValue], mul_one _⟩
    rw [← hrest]
    push_cast
    ring_nf
  · rw [hp, zpow_neg]
    field_simp

/-- A power of constants yields its value, if `multiply` yields products. -/
theorem yields_constantPower {multiply : List Expr → Except Error Expr}
    (hmultiply : ∀ fs x, M.productValue σ fs = some x → Yields M σ bounds (multiply fs) x)
    {b q : Rat} {x : K} (h : M.pow b q = some x) :
    Yields M σ bounds (constantPower bounds multiply b q) x := by
  have hexact {p : Rat} (hp : (p : K) = x) :
      Yields M σ bounds (.ok (.constant p) : Except Error Expr) x := by
    rw [← hp]
    exact value_constant p
  have hpowZero (hb : b = 0) : M.pow 0 q.num = some x := by
    rw [← Rat.cast_zero]
    exact M.pow_root b q 0 x (by rw [hb]; exact Rational.root?_zero q.den_nz) h
  have houtcome : ConstantOutcome bounds multiply b q _ := constantPower_outcome multiply b q
  generalize constantPower bounds multiply b q = result at houtcome ⊢
  cases houtcome with
  | refused => exact ⟨_, rfl, .inl rfl⟩
  | integer hint hlimit =>
    rw [Rational.cast_of_isInteger hint] at h
    exact yields_power h hlimit fun p => hexact
  | zero _ hb hq =>
    have hnum := Rat.num_pos.mpr hq
    have hx := hpowZero hb
    rw [M.pow_int 0 _ (.inr hnum.le), zero_zpow _ hnum.ne', Option.some.injEq] at hx
    rw [← hx]
    exact value_zero
  | undefined hb hq =>
    have hx := hpowZero hb
    rw [M.zero_pow_neg _ (Rat.num_neg.mpr hq)] at hx
    cases hx
  | @root r _ hroot hlimit => exact yields_power (M.pow_root b q r x hroot h) hlimit fun p => hexact
  | split hsplits => exact yields_splitPower hmultiply hsplits.base_pos.ne' hsplits.num_le h
  | radical hq hb =>
    subst hq
    exact value_radical hb h
  | kept => exact value_pow_eq_some.mpr ⟨b, q, value_constant b, value_constant q, h⟩

/-- Integer powers of `i`. -/
theorem value_imaginaryPower {n : Int} {x : K} (h : M.pow M.i n = some x) :
    M.value σ (imaginaryPower n) = some x := by
  have hi : M.i ≠ 0 := by
    intro hzero
    have := M.i_sq
    rw [hzero] at this
    norm_num at this
  have hx : M.i ^ n = x := Option.some.inj ((M.pow_int M.i n (.inl hi)).symm.trans h)
  have hfour : M.i ^ (4 : ℤ) = 1 := by
    have : M.i ^ (4 : ℤ) = (M.i ^ 2) ^ 2 := by norm_cast; ring
    rw [this, M.i_sq]
    norm_num
  have hmod : M.i ^ n = M.i ^ (n % 4) := by
    conv_lhs => rw [← Int.mul_ediv_add_emod n 4]
    rw [zpow_add₀ hi, zpow_mul, hfour, one_zpow, one_mul]
  have hlt := Int.emod_lt_of_pos n (by norm_num : (0 : ℤ) < 4)
  have hnonneg := Int.emod_nonneg n (by norm_num : (4 : ℤ) ≠ 0)
  rw [hmod] at hx
  unfold imaginaryPower
  obtain hr | hr | hr | hr : n % 4 = 0 ∨ n % 4 = 1 ∨ n % 4 = 2 ∨ n % 4 = 3 := by omega
  all_goals rw [hr] at hx ⊢; rw [← hx]
  · rw [zpow_zero]
    exact value_one
  · simp [Expr.imaginaryUnit, value]
  · refine (value_constant _).trans ?_
    rw [show M.i ^ (2 : ℤ) = M.i ^ 2 from by norm_cast, M.i_sq]
    norm_num
  · have hcube : M.i ^ (3 : ℤ) = -M.i := by
      rw [show M.i ^ (3 : ℤ) = M.i ^ 2 * M.i from by norm_cast; ring, M.i_sq, neg_one_mul]
    rw [hcube]
    refine (value_mul _).trans (productValue_cons_eq_some.mpr
      ⟨-1, M.i, ?_, ?_, neg_one_mul M.i⟩)
    · rw [Expr.integer, value_constant]
      norm_num
    · refine productValue_cons_eq_some.mpr ⟨M.i, 1, ?_, by rw [productValue], mul_one _⟩
      rw [Expr.imaginaryUnit, value]

/-! ## The rule -/

/-- An integer power is spread over a product. -/
theorem yieldsFactors_spread {power : Expr → Expr → Except Error Expr}
    (hpower : ∀ b e x, M.value σ (.pow b e) = some x → Yields M σ bounds (power b e) x)
    {exponent : Expr} {n : Int} (hexponent : M.value σ exponent = some (n : K))
    {factors : List Expr} {b x : K} (hfactors : M.productValue σ factors = some b)
    (hx : M.pow b n = some x) :
    YieldsFactors M σ bounds (factors.mapM fun f => power f exponent) x := by
  have hdefined : b ≠ 0 ∨ 0 ≤ n := by
    by_contra hneg
    rw [not_or, not_not, not_le] at hneg
    rw [hneg.1, M.zero_pow_neg n hneg.2] at hx
    cases hx
  obtain rfl : b ^ n = x := Option.some.inj ((M.pow_int b n hdefined).symm.trans hx)
  clear hx
  induction factors generalizing b with
  | nil =>
    obtain rfl : (1 : K) = b := by simpa [productValue] using hfactors
    rw [one_zpow]
    exact yieldsFactors_nil
  | cons f factors ih =>
    obtain ⟨y, z, hy, hz, rfl⟩ := productValue_cons_eq_some.mp hfactors
    have hy' : y ≠ 0 ∨ 0 ≤ n := hdefined.imp_left left_ne_zero_of_mul
    have hz' : z ≠ 0 ∨ 0 ≤ n := hdefined.imp_left right_ne_zero_of_mul
    rw [mul_zpow]
    exact Yields.cons (hpower f exponent _
      (value_pow_eq_some.mpr ⟨y, n, hy, hexponent, M.pow_int y n hy'⟩)) (ih hz hz')

/-- What the rule for powers does yields the power, if the powers of less deep bases are yielded. -/
theorem yields_outcome {P : Expr → Expr → Except Error Expr}
    (hP : ∀ b e x, M.value σ (.pow b e) = some x → Yields M σ bounds (P b e) x) {base exponent : Expr}
    {result : Except Error Expr} (houtcome : PowerOutcome bounds P base exponent result) {x : K}
    (h : M.value σ (.pow base exponent) = some x) : Yields M σ bounds result x := by
  obtain ⟨b, u, hb, hu, hpow⟩ := value_pow_eq_some.mp h
  have hmultiply : ∀ fs x, M.productValue σ fs = some x → Yields M σ bounds (multiplyWith P fs) x :=
    fun fs x hfs => yields_multiplyWith hP hfs
  cases houtcome with
  | one htrivial =>
    obtain rfl : x = 1 := by
      rcases htrivial with rfl | rfl
      · rw [value_zero, Option.some.injEq] at hu
        subst hu
        exact Option.some.inj (hpow.symm.trans (by simpa using M.pow_int b 0 (.inr le_rfl)))
      · rw [value_one, Option.some.injEq] at hb
        subst hb
        exact M.one_pow u x hpow
    exact value_one
  | base =>
    rw [value_one, Option.some.injEq] at hu
    subst hu
    have hx := (M.pow_int b 1 (.inr (by norm_num))).symm.trans (by simpa using hpow)
    rw [zpow_one, Option.some.injEq] at hx
    rw [← hx]
    exact hb
  | constants =>
    rw [value_constant, Option.some.injEq] at hb hu
    subst hb hu
    exact yields_constantPower hmultiply hpow
  | @nested inner e n hint =>
    rw [value_constant, Option.some.injEq] at hu
    subst hu
    have hn := Rational.cast_of_isInteger (K := K) hint
    obtain ⟨c, v, hc, hv, hinner⟩ := value_pow_eq_some.mp hb
    have hcombined : M.productValue σ [e, .constant n] = some (v * n) :=
      productValue_cons_eq_some.mpr ⟨v, n, hv, productValue_cons_eq_some.mpr
        ⟨n, 1, value_constant n, by rw [productValue], mul_one _⟩, rfl⟩
    refine (hmultiply _ _ hcombined).bind fun combined hw => hP _ _ _ ?_
    rw [hn] at hpow hw
    exact value_pow_eq_some.mpr ⟨c, _, hc, hw, M.pow_pow c v n.num b x hinner hpow⟩
  | @spread factors n hint =>
    rw [value_constant, Option.some.injEq, Rational.cast_of_isInteger hint] at hu
    subst hu
    rw [value_mul] at hb
    have hexponent : M.value σ (.constant n) = some (n.num : K) := by
      rw [value_constant, Rational.cast_of_isInteger hint]
    exact (yieldsFactors_spread hP hexponent hb hpow).bind fun powers hpowers => hmultiply powers x hpowers
  | @imaginary arguments n hint =>
    rw [value_constant, Option.some.injEq, Rational.cast_of_isInteger hint] at hu
    subst hu
    match arguments, hb with
    | [], hb =>
      rw [value, Option.some.injEq] at hb
      subst hb
      exact value_imaginaryPower hpow
    | [a], hb => simp [value_function, Option.bind_eq_some_iff, Interpretation.apply] at hb
    | _ :: _ :: _, hb => simp [value] at hb
  | inert => exact h

/-- The rule for powers yields the power. -/
theorem yields_powerWithin (fuel : Nat) {base exponent : Expr} {x : K}
    (h : M.value σ (.pow base exponent) = some x) :
    Yields M σ bounds (powerWithin bounds fuel base exponent) x := by
  induction fuel generalizing base exponent x with
  | zero => exact h
  | succ fuel ih => exact yields_outcome (fun b e x hx => ih hx) (powerStep_outcome base exponent) h

theorem yields_powers (base exponent : Expr) {x : K} (h : M.value σ (.pow base exponent) = some x) :
    Yields M σ bounds (power bounds base exponent) x :=
  yields_powerWithin _ h

/-- The rule for products yields the product of the values. -/
theorem yields_multiply {factors : List Expr} {x : K} (h : M.productValue σ factors = some x) :
    Yields M σ bounds (multiply bounds factors) x :=
  yields_multiplyWith (fun _ _ _ hx => yields_powerWithin _ hx) h

end Canonical

end ClosedForm
