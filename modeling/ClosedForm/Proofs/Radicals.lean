import ClosedForm.Proofs.Failures
import ClosedForm.Proofs.Normal.Products
import ClosedForm.Proofs.Reduction
import Mathlib

/-!
# Canonical powers of rationals

The canonical form of a positive rational `b` to a fraction `p/q` (`Session.canonicalize_rational_power`).
It is a constant exactly if `b` has a rational `q`-th root. Otherwise the rule splits off the
integral part of the exponent, and for `q = 2` the square factors that it finds, and what is left
is a coefficient in front of a power that no rule changes (`Extracts`). Both coefficients meet in a
second pass.
-/

namespace ClosedForm

open ClosedForm.Expr

namespace Canonical

variable {bounds : Bounds} {b x : Rat}

theorem num_fraction (x : Rat) : (x - x.floor).num = x.num - x.den * x.floor := by
  have hden : (x.den : Rat) ≠ 0 := by exact_mod_cast x.den_nz
  have hleft : ((x - x.floor).num : Rat) = (x - x.floor) * x.den := by
    rw [← Rat.mul_den_eq_num, den_fraction]
  have hright : (x.num : Rat) = x * x.den := (Rat.mul_den_eq_num x).symm
  have hcast : ((x - x.floor).num : Rat) = ((x.num - x.den * x.floor : Int) : Rat) := by
    push_cast
    rw [hleft, hright]
    ring
  exact_mod_cast hcast

theorem withCoefficient_eq (c : Rat) (p : Expr) :
    withCoefficient c p = Expr.product (withFactor c [p]) := by
  unfold withCoefficient withFactor
  split <;> rfl

/-! ## What is left under the root -/

/-- `c * d^f` stands for `b^f`, where no rule changes `d^f`, and a square root has no square factors
left that are found. -/
structure Extracts (bounds : Bounds) (b f c d : Rat) : Prop where
  coefficient_pos : 0 < c
  base_pos : 0 < d
  base_ne_one : d ≠ 1
  pow_eq : c ^ f.den * d ^ f.num = b ^ f.num
  kept : Kept bounds d f
  square_free : f.den = 2 → ∃ n : Int, d = n ∧
    ∀ m : Nat, 2 ≤ m → m ≤ Rational.squareBound → ¬ (m : Int) ^ 2 ∣ n

theorem root?_eq_none_iff {n : Nat} (hn : n ≠ 0) :
    Rational.root? b n = none ↔ ¬ ∃ r : Rat, r ^ n = b := by
  rw [← Rational.exists_root?_iff hn]
  cases Rational.root? b n <;> simp

/-- A number without an exact root is not `1`. -/
theorem ne_one_of_root? {n : Nat} (hn : n ≠ 0) (hroot : Rational.root? b n = none) :
    b ≠ 1 := by
  rintro rfl
  exact (root?_eq_none_iff hn).mp hroot ⟨1, one_pow n⟩

/-- A square root that is not exact gives up its square factors. -/
theorem exists_extracts_half (hb : 0 < b) (hlimit : 1 ≤ bounds.maxExactExponent)
    (hroot : Rational.root? b 2 = none) :
    ∃ c d, Extracts bounds b (1 / 2) c d ∧
      basicPower bounds b (1 / 2) =
        .ok (withCoefficient c (.pow (.constant d) (.constant (1 / 2)))) := by
  obtain ⟨c, d, hc, hd, hbase, hfree, hradical⟩ := exists_radical (1 / 2) hb
  have hdpos : (0 : Rat) < d := by exact_mod_cast hd
  have hinside : Rational.root? d 2 = none := by
    -- A root of the inside would make `b` a square.
    rw [root?_eq_none_iff two_ne_zero]
    rintro ⟨r, hr⟩
    exact (root?_eq_none_iff two_ne_zero).mp hroot ⟨c * r, by rw [mul_pow, hr, hbase]⟩
  have hsquares : ∀ m : Nat, 2 ≤ m → m ≤ Rational.squareBound → ¬ (m : Int) ^ 2 ∣ d := by
    intro m htwo hm
    have hnot := Rational.not_sq_dvd_extractSquares hd htwo hm
    rwa [hfree] at hnot
  refine ⟨c, d, ⟨hc, hdpos, ne_one_of_root? two_ne_zero hinside, ?_,
    kept_half hd hlimit hinside hfree, fun _ => ⟨d, rfl, hsquares⟩⟩, ?_⟩
  · rw [den_half, num_half, zpow_one, zpow_one, hbase]
  · refine (constantPower_half hb hlimit hroot).trans (congrArg Except.ok ?_)
    rw [hradical]
    unfold withCoefficient
    split
    · next hone =>
      rw [hone, one_pow, one_mul] at hbase
      rw [hbase]
    · rfl

/-- The numerator of a fraction without an integral part is not negative. -/
theorem num_ne_of_floor {f : Rat} (hfloor : f.floor = 0) : f.num ≠ Rational.leastInt64 := by
  have hnum : 0 ≤ f.num := Rat.num_nonneg.mpr (Rat.le_floor_iff.mp hfloor.ge)
  unfold Rational.leastInt64
  omega

/-- A fractional power without an exact root becomes a coefficient in front of a power that is
kept. -/
theorem exists_extracts {f : Rat} (hb : 0 < b) (hint : Rational.isInteger f = false)
    (hfloor : f.floor = 0) (hlimit : 1 ≤ bounds.maxExactExponent)
    (hroot : Rational.root? b f.den = none) :
    ∃ c d, Extracts bounds b f c d ∧
      basicPower bounds b f = .ok (withCoefficient c (.pow (.constant d) (.constant f))) := by
  by_cases hden : f.den = 2
  · obtain rfl := eq_half hint hfloor hden
    rw [den_half] at hroot
    exact exists_extracts_half hb hlimit hroot
  · have hkept : Kept bounds b f := by
      unfold Kept basicPower constantPower
      dsimp only
      rw [if_neg (by simp [hint]), if_neg hb.ne']
      split
      · rfl
      rw [if_neg (num_ne_of_floor hfloor)]
      split
      · rfl
      rw [hroot]
      dsimp only
      rw [if_neg hb.le.not_gt, if_neg (not_not.mpr hfloor)]
      rfl
    refine ⟨1, b, ⟨one_pos, hb, ne_one_of_root? f.den_nz hroot, by rw [one_pow, one_mul], hkept,
      fun h => absurd h hden⟩, ?_⟩
    unfold withCoefficient
    rw [if_pos rfl]
    exact hkept

theorem Extracts.isTerm {f c d : Rat} (h : Extracts bounds b f c d)
    (hint : Rational.isInteger f = false) :
    IsTerm bounds c [.pow (.constant d) (.constant f)] := by
  have hzero : f ≠ 0 := by
    rintro rfl
    cases hint
  have hone : f ≠ 1 := by
    rintro rfl
    cases hint
  have hnormal : Normal bounds (.pow (.constant d) (.constant f)) :=
    .pow (.constant d) (.constant f) (.kept h.base_ne_one hzero hone h.kept)
  exact ⟨h.coefficient_pos.ne', by simpa using hnormal, .inr (factorShape_singleton rfl rfl rfl)⟩

/-- A constant multiplies the coefficient of a term. -/
theorem IsTerm.multiply_constant {c : Rat} {gs : List Expr} (h : IsTerm bounds c gs)
    (hshape : FactorShape gs) {i : Rat} (hi : i ≠ 0) :
    Canonical.multiply bounds [.constant i, Expr.product (withFactor c gs)] =
      .ok (Expr.product (withFactor (i * c) gs)) := by
  have hcollects := (collects_constant i).append (collects_term hshape c)
  exact (h.of_ne (mul_ne_zero hi h.ne_zero)).multiply hcollects

/-- A coefficient in front of a term is multiplied into it by one pass. -/
theorem reduces_withCoefficient {c : Rat} {gs : List Expr} (h : IsTerm bounds c gs)
    (hshape : FactorShape gs) {i : Rat} (hi : i ≠ 0) :
    Reduces bounds (withCoefficient i (Expr.product (withFactor c gs)))
      (Expr.product (withFactor (i * c) gs)) := by
  unfold withCoefficient
  split
  · next hone =>
    rw [hone, one_mul]
    exact h.normal.reduces
  · exact .mul (.cons (Reduces.constant i) (.cons h.normal.reduces .nil))
      (h.multiply_constant hshape hi) (h.of_ne (mul_ne_zero hi h.ne_zero)).normal

/-! ## Both stages -/

/-- The canonical forms of `b^x`: a constant if `b` has an exact root, and otherwise a coefficient in
front of a power to the fractional part of the exponent. -/
inductive RadicalForm (b x : Rat) : Expr → Prop
  | constant {v : Rat} (hroot : ∃ r : Rat, r ^ x.den = b) (hv : 0 < v) (heq : v ^ x.den = b ^ x.num) :
    RadicalForm b x (.constant v)
  | radical {v d : Rat} (hroot : ¬ ∃ r : Rat, r ^ x.den = b) (hv : 0 < v) (hd : 0 < d)
    (heq : v ^ x.den * d ^ (x.num - x.den * x.floor) = b ^ x.num)
    (hfree : x.den = 2 → ∃ n : Int, d = n ∧
      ∀ m : Nat, 2 ≤ m → m ≤ Rational.squareBound → ¬ (m : Int) ^ 2 ∣ n) :
    RadicalForm b x (withCoefficient v (.pow (.constant d) (.constant (x - x.floor))))

theorem power_eq_constantPower (hone : b ≠ 1) (hint : Rational.isInteger x = false) :
    power bounds (.constant b) (.constant x) = constantPower bounds (multiplyWith (power bounds)) b x := by
  have hx : x ≠ 0 ∧ x ≠ 1 := by
    constructor <;>
    · rintro rfl
      cases hint
  rw [power_eq]
  unfold powerStep
  rw [if_neg (by simp [isZero, isOne, hone, hx.1]), if_neg (by simp [isOne, hx.2])]

/-- A power with an exact root is computed. -/
theorem constantPower_of_root (hbounds : bounds.InRange) {multiply : List Expr → Except Error Expr}
    (hb : 0 < b) (hint : Rational.isInteger x = false) (hnum : x.num.natAbs ≤ bounds.maxExactExponent)
    (hden : x.den < rootBound) {r : Rat} (hroot : Rational.root? b x.den = some r) :
    constantPower bounds multiply b x = .ok (.constant (r ^ x.num)) := by
  obtain ⟨-, hr⟩ := Rational.pow_of_root? hb hroot
  unfold constantPower
  dsimp only
  rw [if_neg (by simp [hint]), if_neg hb.ne', if_neg hden.not_ge, if_neg (hbounds.num_ne hnum),
    if_neg hnum.not_gt, hroot]
  dsimp only
  rw [Rational.power_eq r (hnum.trans_lt hbounds), if_neg fun h => hr.ne' h.1]
  rfl

/-- What is left stands for the power to the fractional part of the exponent. -/
theorem Extracts.pow_fraction_eq {c d : Rat} (h : Extracts bounds b (x - x.floor) c d) :
    c ^ x.den * d ^ (x.num - x.den * x.floor) = b ^ (x.num - x.den * x.floor) := by
  have heq := h.pow_eq
  rwa [den_fraction, num_fraction] at heq

/-- A power between the base and `1` is left at its coefficient and its power. -/
theorem Extracts.exists_radicalForm_of_floor {c d : Rat} (h : Extracts bounds b (x - x.floor) c d)
    (hroot : ¬ ∃ r : Rat, r ^ x.den = b) (hint : Rational.isInteger x = false) (hfloor : x.floor = 0)
    (hbasic : basicPower bounds b (x - x.floor) =
      .ok (withCoefficient c (.pow (.constant d) (.constant (x - x.floor))))) :
    ∃ m e, constantPower bounds (multiplyWith (power bounds)) b x = .ok m ∧ Reduces bounds m e ∧
      RadicalForm b x e := by
  have hsame : x - x.floor = x := by rw [hfloor, Int.cast_zero, sub_zero]
  have hterm := h.isTerm (by rw [isInteger_fraction, hint])
  have hnormal : Normal bounds (withCoefficient c (.pow (.constant d) (.constant (x - x.floor)))) := by
    rw [withCoefficient_eq]
    exact hterm.normal
  have hfree := h.square_free
  rw [den_fraction] at hfree
  refine ⟨_, _, ?_, hnormal.reduces, .radical hroot h.coefficient_pos h.base_pos ?_ hfree⟩
  · rw [constantPower_of_not_splits fun hsplits => hsplits.floor_ne hfloor]
    rwa [hsame] at hbasic ⊢
  · rw [h.pow_fraction_eq, hfloor, mul_zero, sub_zero]

/-- The integral power that is split off is multiplied into the coefficient by a second pass. -/
theorem Extracts.exists_radicalForm_of_splits {c d : Rat} (h : Extracts bounds b (x - x.floor) c d)
    (hbounds : bounds.InRange) (hroot : ¬ ∃ r : Rat, r ^ x.den = b) (hone : b ≠ 1)
    (hsplits : Splits bounds b x) (hnum : x.num.natAbs ≤ bounds.maxExactExponent)
    (hbasic : basicPower bounds b (x - x.floor) =
      .ok (withCoefficient c (.pow (.constant d) (.constant (x - x.floor))))) :
    ∃ m e, constantPower bounds (multiplyWith (power bounds)) b x = .ok m ∧ Reduces bounds m e ∧
      RadicalForm b x e := by
  have hb := hsplits.base_pos
  have hfraction : Rational.isInteger (x - x.floor) = false := by
    rw [isInteger_fraction, hsplits.not_isInteger]
  have hi : 0 < b ^ x.floor := zpow_pos hb _
  have hintegral : Rational.power b x.floor = .ok (b ^ x.floor) := by
    rw [Rational.power_eq b (hbounds.floor_lt hnum), if_neg fun h => hb.ne' h.1]
  have hrule : power bounds (.constant b) (.constant (x - x.floor)) =
      basicPower bounds b (x - x.floor) := by
    rw [power_eq_constantPower hone hfraction,
      constantPower_of_not_splits (not_splits_fraction bounds b x)]
  have hreduces := reduces_withCoefficient (h.isTerm hfraction) (factorShape_singleton rfl rfl rfl) hi.ne'
  rw [← withCoefficient_eq, ← withCoefficient_eq] at hreduces
  have hfree := h.square_free
  rw [den_fraction] at hfree
  refine ⟨_, _, ?_, hreduces, .radical hroot (mul_pos hi h.coefficient_pos) h.base_pos ?_ hfree⟩
  · rw [constantPower_splits hsplits hrule, hintegral, hbasic]
    rfl
  · rw [mul_pow, mul_assoc, h.pow_fraction_eq, ← zpow_natCast, ← zpow_mul, ← zpow_add₀ hb.ne']
    congr 1
    ring

/-- The rule for a power of a positive rational, and what one more pass makes of its result. -/
theorem exists_radicalForm (hbounds : bounds.InRange) (hb : 0 < b) (hone : b ≠ 1)
    (hint : Rational.isInteger x = false) (hnum : x.num.natAbs ≤ bounds.maxExactExponent)
    (hden : x.den < rootBound) :
    ∃ m c, power bounds (.constant b) (.constant x) = .ok m ∧ Reduces bounds m c ∧
      RadicalForm b x c := by
  rw [power_eq_constantPower hone hint]
  cases hroot : Rational.root? b x.den with
  | some r =>
    obtain ⟨rfl, hr⟩ := Rational.pow_of_root? hb hroot
    refine ⟨_, _, constantPower_of_root hbounds hb hint hnum hden hroot, Reduces.constant _,
      .constant ⟨r, rfl⟩ (zpow_pos hr _) ?_⟩
    rw [← zpow_natCast, ← zpow_natCast, ← zpow_mul, ← zpow_mul, mul_comm]
  | none =>
    have hnone := (root?_eq_none_iff x.den_nz).mp hroot
    have hx : x ≠ 0 := by
      rintro rfl
      cases hint
    have hlimit : 1 ≤ bounds.maxExactExponent :=
      (Int.natAbs_pos.mpr (Rat.num_ne_zero.mpr hx)).trans_le hnum
    obtain ⟨c, d, hextracts, hbasic⟩ := exists_extracts hb (by rw [isInteger_fraction, hint])
      (floor_fraction x) hlimit (by rw [den_fraction, hroot])
    by_cases hfloor : x.floor = 0
    · exact hextracts.exists_radicalForm_of_floor hnone hint hfloor hbasic
    · exact hextracts.exists_radicalForm_of_splits hbounds hnone hone
        ⟨hint, hb, hden, hbounds.num_ne hnum, hnum, hroot, hfloor⟩ hnum hbasic

/-- A canonicalization of a power of a positive rational ends with one of its canonical forms,
whatever the memo holds. -/
theorem exists_canonical_rational_power (hbounds : bounds.InRange) (hpasses : 3 ≤ bounds.maxPasses)
    {memo : Memo} (hmemo : memo.Reachable bounds) (hb : 0 < b) (hone : b ≠ 1)
    (hint : Rational.isInteger x = false) (hnum : x.num.natAbs ≤ bounds.maxExactExponent)
    (hden : x.den < rootBound) :
    ∃ c, ((canonicalize bounds (.pow (.constant b) (.constant x))).run.run memo).1 = .ok c ∧
      RadicalForm b x c := by
  obtain ⟨m, c, hrule, hreduces, hform⟩ := exists_radicalForm hbounds hb hone hint hnum hden
  have hchildren : ∀ d ∈ (Expr.pow (.constant b) (.constant x)).children, Normal bounds d := by
    simp [children, Normal.constant]
  exact ⟨c, hreduces.canonicalize_of_rule hpasses hmemo hchildren hrule, hform⟩

end Canonical

namespace Session

/-- A positive rational `b` other than `1` to a fraction `p/q` in lowest terms has a canonical form in
every session. It is a constant exactly if `b` is the `q`-th power of a rational, and then a positive
one whose `q`-th power is `b^p`. Otherwise it is a positive coefficient, not written if it is `1`, in
front of the power of a positive rational to the fractional part of the exponent, again with the
`q`-th power `b^p`; for `q = 2` what is left under the root is an integer without square factors within
the bound. -/
theorem canonicalize_rational_power {session : Session} (hsession : session.Reachable {})
    {handle : Handle} {b x : Rat} (hexpr : session.pool.expr handle = .pow (.constant b) (.constant x))
    (hb : 0 < b) (hone : b ≠ 1) (hx : x.den ≠ 1)
    (hnum : x.num.natAbs ≤ ({} : Bounds).maxExactExponent) (hden : x.den < 2 ^ 32) :
    ∃ result later, session.answer (canonicalize handle) = (.ok result, later) ∧
      ((∃ v, later.pool.expr result = .constant v) ↔ ∃ r : Rat, r ^ x.den = b) ∧
      (∀ v, later.pool.expr result = .constant v → 0 < v ∧ v ^ x.den = b ^ x.num) ∧
      ((¬ ∃ r : Rat, r ^ x.den = b) → ∃ v d : Rat, 0 < v ∧ 0 < d ∧
        later.pool.expr result =
          Canonical.withCoefficient v (.pow (.constant d) (.constant (x - x.floor))) ∧
        v ^ x.den * d ^ (x.num - x.den * x.floor) = b ^ x.num ∧
        (x.den = 2 → ∃ n : Int, d = n ∧ ∀ m : Nat, 2 ≤ m → m ≤ 10000 → ¬ (m : Int) ^ 2 ∣ n)) := by
  have hint : Rational.isInteger x = false := by simpa [Rational.isInteger] using hx
  have hbounds : Bounds.InRange {} := by unfold Bounds.InRange; decide
  obtain ⟨c, hrun, hform⟩ := Canonical.exists_canonical_rational_power hbounds (by decide)
    hsession.consistent.memo hb hone hint hnum hden
  rw [← hexpr] at hrun
  obtain ⟨result, later, hanswer, hstands⟩ := canonicalize_ok hsession.consistent hrun
  refine ⟨result, later, hanswer, ?_⟩
  rw [hstands.2]
  cases hform with
  | @constant v hroot hv heq =>
    refine ⟨⟨fun _ => hroot, fun _ => ⟨v, rfl⟩⟩, fun w hw => ?_, fun h => absurd hroot h⟩
    cases hw
    exact ⟨hv, heq⟩
  | @radical v d hroot hv hd heq hfree =>
    have hconstant (w : Rat) : Canonical.withCoefficient v
        (.pow (.constant d) (.constant (x - x.floor))) ≠ .constant w := by
      unfold Canonical.withCoefficient
      split <;> simp
    refine ⟨⟨fun ⟨w, hw⟩ => absurd hw (hconstant w), fun h => absurd h hroot⟩,
      fun w hw => absurd hw (hconstant w), fun _ => ⟨v, d, hv, hd, rfl, heq, hfree⟩⟩

/-- `8^(-1/2)` has the canonical form `v*d^(1/2)` with `v^2*d = 1/8`. -/
theorem canonicalize_rational_power_eight :
    ∃ (session later : Session) (handle result : Handle) (v d : Rat), session.Reachable {} ∧
      session.pool.expr handle = .pow (.constant 8) (.constant (-1 / 2)) ∧
      session.answer (canonicalize handle) = (.ok result, later) ∧
      later.pool.expr result = Canonical.withCoefficient v (.pow (.constant d) (.constant (1 / 2))) ∧
      v ^ 2 * d = 1 / 8 := by
  have hsize : (((new {}).after (.intern (.constant 8))).after
      (.intern (.constant (-1 / 2)))).pool.size = 4 := by
    cbv
  have hreachable : ((((new {}).after (.intern (.constant 8))).after
      (.intern (.constant (-1 / 2)))).after (.intern (.pow 2 3))).Reachable {} := by
    refine .after _ (.after _ (.after _ .new ?_) ?_) fun h hh => ?_
    · simp [Operation.handles, Pool.Has, Node.children]
    · simp [Operation.handles, Pool.Has, Node.children]
    · have hmem : h = 2 ∨ h = 3 := by simpa [Operation.handles, Node.children] using hh
      rcases hmem with rfl | rfl <;> exact lt_of_lt_of_eq (by decide) hsize.symm
  have hexpr : ((((new {}).after (.intern (.constant 8))).after
      (.intern (.constant (-1 / 2)))).after (.intern (.pow 2 3))).pool.expr 4 =
        .pow (.constant 8) (.constant (-1 / 2)) := by
    cbv
  generalize (((new {}).after (.intern (.constant 8))).after
      (.intern (.constant (-1 / 2)))).after (.intern (.pow 2 3)) = session at hreachable hexpr
  have hden : (-1 / 2 : Rat).den = 2 := by decide +kernel
  have hnum : (-1 / 2 : Rat).num = -1 := by decide +kernel
  have hfloor : (-1 / 2 : Rat).floor = -1 := by decide +kernel
  have hroot : ¬ ∃ r : Rat, r ^ (-1 / 2 : Rat).den = 8 := by
    rw [hden, ← Canonical.root?_eq_none_iff two_ne_zero]
    decide +kernel
  obtain ⟨result, later, hanswer, -, -, hform⟩ := canonicalize_rational_power hreachable hexpr
    (by norm_num) (by norm_num) (by rw [hden]; decide) (by rw [hnum]; decide) (by rw [hden]; decide)
  obtain ⟨v, d, -, -, hresult, heq, -⟩ := hform hroot
  rw [hfloor] at hresult
  rw [hden, hnum, hfloor] at heq
  exact ⟨session, later, 4, result, v, d, hreachable, hexpr, hanswer,
    by rw [hresult]; norm_num, by norm_num at heq; linarith⟩

end Session

end ClosedForm
