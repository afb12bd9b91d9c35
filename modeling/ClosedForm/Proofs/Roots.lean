import ClosedForm.Rational.Root
import Mathlib.Algebra.Order.Ring.Rat
import Mathlib.Data.Rat.Lemmas
import Mathlib.Tactic.Positivity
import Mathlib.Tactic.Ring

/-!
# Exact roots

A rational is found as an exact root exactly if it is one (`root?_eq_some_iff`): a perfect power of
rationals has a numerator and a denominator that are perfect powers of integers, and the bitwise
search finds the root of these (`natRoot_spec`). Any integer root that is rounded toward zero would
do in place of the search (`RoundsTowardZero.testRoots_eq`).
-/

namespace ClosedForm.Rational

/-! ## Roots of natural numbers -/

/-- What is found as an exact root of a natural number is one. -/
theorem pow_of_exactNatRoot? {n v root : Nat} (hn : n ≠ 0) (h : exactNatRoot? n v = some root) :
    root ^ n = v := by
  unfold exactNatRoot? at h
  split at h
  · next hle =>
    cases h
    obtain rfl | rfl : v = 0 ∨ v = 1 := by omega
    · exact zero_pow hn
    · exact one_pow n
  · split at h
    · cases h
    · dsimp only at h
      split at h
      · next heq =>
        cases h
        exact heq
      · cases h

/-- The search keeps the root between the bounds and halves their distance. -/
theorem refineRoot_spec {n v bits root : Nat} (hlow : root ^ n ≤ v)
    (hhigh : v < (root + 2 ^ bits) ^ n) :
    refineRoot n v bits root ^ n ≤ v ∧ v < (refineRoot n v bits root + 1) ^ n := by
  induction bits generalizing root with
  | zero => exact ⟨hlow, by simpa [refineRoot] using hhigh⟩
  | succ bits ih =>
    rw [refineRoot]
    by_cases h : Nat.pow (root + Nat.pow 2 bits) n ≤ v
    · rw [if_pos h]
      refine ih h ?_
      rwa [show root + Nat.pow 2 bits + 2 ^ bits = root + 2 ^ (bits + 1) from by
        rw [pow_succ]
        show root + 2 ^ bits + 2 ^ bits = _
        omega]
    · rw [if_neg h]
      exact ih hlow (not_le.mp h)

/-- The root that the search ends with is rounded down. -/
theorem natRoot_spec {n : Nat} (hn : n ≠ 0) (v : Nat) :
    natRoot n v ^ n ≤ v ∧ v < (natRoot n v + 1) ^ n := by
  have hhigh : v < (0 + 2 ^ (v.log2 / n + 1)) ^ n := by
    rw [zero_add, ← pow_mul]
    refine Nat.lt_log2_self.trans_le (Nat.pow_le_pow_right (by norm_num) ?_)
    rw [Nat.add_mul, Nat.one_mul]
    exact Nat.lt_div_mul_add (Nat.pos_of_ne_zero hn)
  exact refineRoot_spec (by rw [zero_pow hn]; exact Nat.zero_le _) hhigh

theorem natRoot_pow {n : Nat} (hn : n ≠ 0) (r : Nat) : natRoot n (r ^ n) = r := by
  obtain ⟨hlow, hhigh⟩ := natRoot_spec hn (r ^ n)
  have hle := (Nat.pow_le_pow_iff_left hn).mp hlow
  have hlt := (Nat.pow_lt_pow_iff_left hn).mp hhigh
  omega

theorem natRoot_zero {n : Nat} (hn : n ≠ 0) : natRoot n 0 = 0 := by
  have h := natRoot_pow hn 0
  rwa [zero_pow hn] at h

/-- The exact root of a power is found. -/
theorem exactNatRoot?_pow {n : Nat} (hn : n ≠ 0) (r : Nat) : exactNatRoot? n (r ^ n) = some r := by
  unfold exactNatRoot?
  by_cases hsmall : r ≤ 1
  · obtain rfl | rfl : r = 0 ∨ r = 1 := by omega
    · simp [hn]
    · simp
  · have hlarge : ¬ r ^ n ≤ 1 := by
      have := Nat.one_lt_pow hn (show 1 < r by omega)
      omega
    have hlog : ¬ (r ^ n).log2 < n := by
      rw [not_lt, Nat.le_log2 (by omega)]
      exact Nat.pow_le_pow_left (by omega) n
    rw [if_neg hlarge, if_neg hlog]
    dsimp only
    rw [natRoot_pow hn]
    exact if_pos rfl

theorem exactNatRoot?_eq_some_iff {n v root : Nat} (hn : n ≠ 0) :
    exactNatRoot? n v = some root ↔ root ^ n = v := by
  constructor
  · exact pow_of_exactNatRoot? hn
  · rintro rfl
    exact exactNatRoot?_pow hn root

/-! ## Roots of rationals -/

/-- A root is searched, except of a negative number for an even degree. -/
theorem not_refused_iff {q : Rat} {n : Nat} :
    ¬ (decide (q < 0) && n % 2 == 0) = true ↔ (Even n → 0 ≤ q) := by
  rw [Bool.and_eq_true, decide_eq_true_eq, beq_iff_eq, ← Nat.even_iff, not_and', not_lt]

/-- A root has the sign of the number it is a root of. -/
theorem signed_num {q r : Rat} {n : Nat} (hpow : r ^ n = q) (heven : Even n → 0 ≤ r) :
    (if q < 0 then -(r.num.natAbs : Int) else r.num.natAbs) = r.num := by
  split
  · next hneg =>
    have hr : r < 0 := by
      by_contra hr
      exact absurd (hpow ▸ pow_nonneg (not_lt.mp hr) n) (not_le.mpr hneg)
    have := Rat.num_neg.mpr hr
    omega
  · next hneg =>
    have hr : 0 ≤ r := by
      rcases Nat.even_or_odd n with h | h
      · exact heven h
      · rw [← hpow, not_lt] at hneg
        exact h.pow_nonneg_iff.mp hneg
    have := Rat.num_nonneg.mpr hr
    omega

/-- The root of the numerator without its sign, given the sign, is a root of the numerator. -/
theorem signed_pow {q : Rat} {num n : Nat} (hnum : num ^ n = q.num.natAbs)
    (hq : Even n → 0 ≤ q) : (if q < 0 then -(num : Int) else num) ^ n = q.num := by
  have hcast : (num : Int) ^ n = q.num.natAbs := by exact_mod_cast hnum
  split
  · next hneg =>
    have := Rat.num_neg.mpr hneg
    have hodd : Odd n := Nat.not_even_iff_odd.mp fun hparity => absurd (hq hparity) (not_le.mpr hneg)
    rw [hodd.neg_pow, hcast]
    omega
  · next hneg =>
    have := Rat.num_nonneg.mpr (not_lt.mp hneg)
    omega

/-- A root is found exactly if it is one, and not negative for an even degree. -/
theorem root?_eq_some_iff {q r : Rat} {n : Nat} (hn : n ≠ 0) :
    root? q n = some r ↔ r ^ n = q ∧ (Even n → 0 ≤ r) := by
  unfold root?
  rw [if_neg hn]
  constructor
  · intro h
    split at h
    · cases h
    · next hsign =>
      have hq := not_refused_iff.mp hsign
      split at h
      · next num den hnum hden =>
        cases h
        rw [exactNatRoot?_eq_some_iff hn] at hnum hden
        rw [Rat.mkRat_eq_div]
        refine ⟨?_, fun hparity => ?_⟩
        · rw [div_pow, ← Int.cast_pow, signed_pow hnum hq, ← Nat.cast_pow, hden, Rat.num_div_den]
        · rw [if_neg (not_lt.mpr (hq hparity))]
          positivity
      · cases h
  · rintro ⟨hpow, heven⟩
    have hsign := not_refused_iff.mpr fun hparity => hpow ▸ pow_nonneg (heven hparity) n
    have hnum : exactNatRoot? n q.num.natAbs = some r.num.natAbs := by
      rw [← hpow, Rat.num_pow, Int.natAbs_pow]
      exact exactNatRoot?_pow hn _
    have hden : exactNatRoot? n q.den = some r.den := by
      rw [← hpow, Rat.den_pow]
      exact exactNatRoot?_pow hn _
    rw [if_neg hsign, hnum, hden]
    dsimp only
    rw [signed_num hpow heven, Rat.mkRat_self]

/-- A root is found exactly if there is one. -/
theorem exists_root?_iff {q : Rat} {n : Nat} (hn : n ≠ 0) :
    (∃ r, root? q n = some r) ↔ ∃ x : Rat, x ^ n = q := by
  constructor
  · rintro ⟨r, hr⟩
    exact ⟨r, ((root?_eq_some_iff hn).mp hr).1⟩
  · rintro ⟨x, hx⟩
    rcases Nat.even_or_odd n with heven | hodd
    · exact ⟨|x|, (root?_eq_some_iff hn).mpr ⟨by rwa [heven.pow_abs], fun _ => abs_nonneg x⟩⟩
    · exact ⟨x, (root?_eq_some_iff hn).mpr ⟨hx, fun h => absurd h (Nat.not_even_iff_odd.mpr hodd)⟩⟩

/-- What is found as an exact root of a positive rational is one, and positive. -/
theorem pow_of_root? {q r : Rat} {n : Nat} (hq : 0 < q) (h : root? q n = some r) :
    r ^ n = q ∧ 0 < r := by
  have hn : n ≠ 0 := by
    rintro rfl
    cases h
  obtain ⟨hpow, heven⟩ := (root?_eq_some_iff hn).mp h
  refine ⟨hpow, ?_⟩
  rcases Nat.even_or_odd n with hparity | hparity
  · refine (heven hparity).lt_of_ne ?_
    rintro rfl
    rw [zero_pow hn] at hpow
    exact hq.ne hpow
  · rw [← hpow] at hq
    exact hparity.pow_pos_iff.mp hq

/-- A first root is the number itself. -/
theorem eq_of_root?_one {q r : Rat} (h : root? q 1 = some r) : r = q := by
  rw [← ((root?_eq_some_iff one_ne_zero).mp h).1, pow_one]

theorem root?_zero {n : Nat} (hn : n ≠ 0) : root? 0 n = some 0 :=
  (root?_eq_some_iff hn).mpr ⟨zero_pow hn, fun _ => le_rfl⟩

/-- The square root of a square is found. -/
theorem root?_mul_self {s : Rat} (hs : 0 < s) : root? (s * s) 2 = some s :=
  (root?_eq_some_iff two_ne_zero).mpr ⟨pow_two s, fun _ => hs.le⟩

/-! ## Roots from rounded roots -/

/-- The function gives the integer root of every integer that has a real one, rounded toward zero. -/
def RoundsTowardZero (root : Nat → Int → Int) : Prop :=
  ∀ (n : Nat) (v : Int), n ≠ 0 → (0 ≤ v ∨ Odd n) →
    (0 ≤ v → 0 ≤ root n v) ∧ (v ≤ 0 → root n v ≤ 0) ∧
      |root n v| ^ n ≤ |v| ∧ |v| < (|root n v| + 1) ^ n

/-- The test of the rounded roots of the numerator and the denominator. -/
def testRoots (root : Nat → Int → Int) (q : Rat) (n : Nat) : Option Rat :=
  if n = 0 then none
  else if q < 0 && n % 2 == 0 then none
  else
    let num := root n q.num
    let den := root n q.den
    if num ^ n = q.num ∧ den ^ n = q.den then some (num / den) else none

/-- The rounded root of a perfect power is its root. -/
theorem RoundsTowardZero.root_eq {root : Nat → Int → Int} (h : RoundsTowardZero root) {n : Nat}
    (hn : n ≠ 0) {v s : Int} (hpow : s ^ n = v) (heven : Even n → 0 ≤ s) : root n v = s := by
  have hreal : 0 ≤ v ∨ Odd n := by
    rcases Nat.even_or_odd n with hparity | hparity
    · exact .inl (hpow ▸ pow_nonneg (heven hparity) n)
    · exact .inr hparity
  obtain ⟨hpos, hneg, hlow, hhigh⟩ := h n v hn hreal
  have habs : |root n v| = |s| := by
    have hv : |v| = |s| ^ n := by rw [← hpow, abs_pow]
    rw [hv] at hlow hhigh
    have hle := (pow_le_pow_iff_left₀ (abs_nonneg _) (abs_nonneg s) hn).mp hlow
    have hlt := (pow_lt_pow_iff_left₀ (abs_nonneg s) (by positivity) hn).mp hhigh
    omega
  rcases lt_trichotomy s 0 with hs | rfl | hs
  · have hodd : Odd n := Nat.not_even_iff_odd.mp fun hparity => absurd (heven hparity) (not_le.mpr hs)
    have hv : v < 0 := hpow ▸ hodd.pow_neg hs
    rw [abs_of_nonpos (hneg hv.le), abs_of_neg hs] at habs
    omega
  · rw [abs_zero] at habs
    exact abs_eq_zero.mp habs
  · have hv : 0 < v := hpow ▸ pow_pos hs n
    rwa [abs_of_nonneg (hpos hv.le), abs_of_pos hs] at habs

/-- Whatever rounds roots toward zero, testing the rounded roots finds the exact root. -/
theorem RoundsTowardZero.testRoots_eq {root : Nat → Int → Int} (h : RoundsTowardZero root) (q : Rat)
    (n : Nat) : testRoots root q n = root? q n := by
  by_cases hn : n = 0
  · simp [testRoots, root?, hn]
  refine Option.ext fun r => ?_
  rw [root?_eq_some_iff hn]
  unfold testRoots
  rw [if_neg hn]
  constructor
  · intro hr
    split at hr
    · cases hr
    · next hsign =>
      have hq := not_refused_iff.mp hsign
      dsimp only at hr
      split at hr
      · next hpow =>
        cases hr
        refine ⟨?_, fun hparity => ?_⟩
        · rw [div_pow, ← Int.cast_pow, ← Int.cast_pow, hpow.1, hpow.2, Int.cast_natCast,
            Rat.num_div_den]
        · have hnum := Rat.num_nonneg.mpr (hq hparity)
          have hden : (0 : Int) ≤ q.den := Int.natCast_nonneg _
          exact div_nonneg (Int.cast_nonneg ((h n _ hn (.inl hnum)).1 hnum))
            (Int.cast_nonneg ((h n _ hn (.inl hden)).1 hden))
      · cases hr
  · rintro ⟨hpow, heven⟩
    have hsign := not_refused_iff.mpr fun hparity => hpow ▸ pow_nonneg (heven hparity) n
    have hnum : r.num ^ n = q.num := by rw [← hpow, Rat.num_pow]
    have hden : (r.den : Int) ^ n = q.den := by rw [← hpow, Rat.den_pow, Nat.cast_pow]
    rw [if_neg hsign, h.root_eq hn hnum fun hparity => Rat.num_nonneg.mpr (heven hparity),
      h.root_eq hn hden fun _ => Int.natCast_nonneg _]
    dsimp only
    rw [if_pos ⟨hnum, hden⟩, Int.cast_natCast, Rat.num_div_den]

/-- The rounded root of the absolute value, with the sign of the number. -/
def roundedRoot (n : Nat) (v : Int) : Int :=
  if v < 0 then -(natRoot n v.natAbs : Int) else natRoot n v.natAbs

theorem roundsTowardZero_roundedRoot : RoundsTowardZero roundedRoot := by
  intro n v hn _
  have habs : |roundedRoot n v| = natRoot n v.natAbs := by
    unfold roundedRoot
    split <;> simp
  obtain ⟨hlow, hhigh⟩ := natRoot_spec hn v.natAbs
  refine ⟨fun hv => ?_, fun hv => ?_, ?_, ?_⟩
  · rw [roundedRoot, if_neg (not_lt.mpr hv)]
    exact Int.natCast_nonneg _
  · rw [roundedRoot]
    split
    · exact neg_nonpos.mpr (Int.natCast_nonneg _)
    · -- What is neither negative nor positive is zero, and so is its root.
      obtain rfl : v = 0 := by omega
      rw [Int.natAbs_zero, natRoot_zero hn, Nat.cast_zero]
  · rw [habs, Int.abs_eq_natAbs]
    exact_mod_cast hlow
  · rw [habs, Int.abs_eq_natAbs]
    exact_mod_cast hhigh

/-- A root is found exactly if some rational has the power asked for, and what is found is one, and
not negative for an even degree. The same answer comes from testing the rounded roots of the
numerator and the denominator, whatever rounds them toward zero. -/
theorem root?_exact (v : Rat) {n : Nat} (hn : 1 ≤ n) :
    ((∃ r, root? v n = some r) ↔ ∃ x : Rat, x ^ n = v) ∧
    (∀ r, root? v n = some r → r ^ n = v ∧ (Even n → 0 ≤ r)) ∧
    ((∃ r, sqrt? v = some r) ↔ ∃ x : Rat, x ^ 2 = v) ∧
    (∀ r, sqrt? v = some r → r ^ 2 = v ∧ 0 ≤ r) ∧
    ∀ root, RoundsTowardZero root →
      testRoots root v n = root? v n ∧ testRoots root v 2 = sqrt? v := by
  have hne : n ≠ 0 := Nat.one_le_iff_ne_zero.mp hn
  refine ⟨exists_root?_iff hne, fun r => (root?_eq_some_iff hne).mp, exists_root?_iff two_ne_zero,
    fun r hr => ?_, fun root hroot => ⟨hroot.testRoots_eq v n, hroot.testRoots_eq v 2⟩⟩
  obtain ⟨hpow, heven⟩ := (root?_eq_some_iff two_ne_zero).mp hr
  exact ⟨hpow, heven even_two⟩

/-- The cube root of `-8/27`. -/
theorem root?_exact_cube :
    1 ≤ 3 ∧ RoundsTowardZero roundedRoot ∧ (∃ r, root? (-8 / 27) 3 = some r ∧ r ^ 3 = -8 / 27) ∧
      testRoots roundedRoot (-8 / 27) 3 = root? (-8 / 27) 3 := by
  obtain ⟨hexists, hsound, -, -, htest⟩ := root?_exact (-8 / 27) (show 1 ≤ 3 by decide)
  obtain ⟨r, hr⟩ := hexists.mpr ⟨-2 / 3, by norm_num⟩
  exact ⟨by decide, roundsTowardZero_roundedRoot, ⟨r, hr, (hsound r hr).1⟩,
    (htest roundedRoot roundsTowardZero_roundedRoot).1⟩

end ClosedForm.Rational
