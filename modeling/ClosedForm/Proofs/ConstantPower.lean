import ClosedForm.Canonical.Power
import ClosedForm.Proofs.Order
import ClosedForm.Proofs.Roots
import ClosedForm.Proofs.SquareFactors
import Mathlib.Data.Rat.Floor
import Mathlib.Tactic.FieldSimp
import Mathlib.Tactic.LinearCombination

/-!
# Powers of constants

What becomes of a constant to a constant power. Either the integral part of the exponent is
split off (`Splits`), and the rule for products has the last word, or the outcome does not
depend on products at all (`basicPower`): it is a constant, the power as it is (`Kept`), or a
coefficient in front of a square root that is kept (`basicPower_eq_ok`). The fraction that is
left when the integral part is split off is not split again.

A power whose exponent has the least 64-bit integer as its numerator is refused, unless the base or
the denominator decides before that (`constantPower_refused`).
-/

namespace ClosedForm.Canonical

variable {bounds : Bounds} {b q : Rat}

/-! ## Exponents and their fractions -/

theorem den_fraction (q : Rat) : (q - q.floor).den = q.den :=
  Rat.sub_intCast_den q q.floor

theorem floor_fraction (q : Rat) : (q - q.floor).floor = 0 := by
  have h := Rat.floor_add_intCast (x := q) (y := -q.floor)
  rw [Rat.intCast_neg, ← sub_eq_add_neg] at h
  omega

theorem isInteger_fraction (q : Rat) :
    Rational.isInteger (q - q.floor) = Rational.isInteger q := by
  simp only [Rational.isInteger, den_fraction]

theorem den_half : (1 / 2 : Rat).den = 2 := by decide +kernel

theorem num_half : (1 / 2 : Rat).num = 1 := by decide +kernel

/-- A fraction between `0` and `1` with denominator `2` is a half. -/
theorem eq_half (hint : Rational.isInteger q = false) (hfloor : q.floor = 0) (hden : q.den = 2) :
    q = 1 / 2 := by
  have hnum : q.num / (q.den : Int) = 0 := by rw [← Rat.floor_def, hfloor]
  have hodd : q.num = 0 ∨ q.num = 1 := by rw [hden] at hnum; omega
  have hne : q.num ≠ 0 := by
    intro hzero
    rw [Rat.num_eq_zero.mp hzero] at hint
    cases hint
  rw [← Rat.num_div_den q, hden, hodd.resolve_left hne]
  norm_num

theorem natAbs_floor_le (q : Rat) : q.floor.natAbs ≤ q.num.natAbs := by
  rw [Rat.floor_def]
  exact Int.natAbs_ediv_le_natAbs _ _

/-! ## The two ways -/

/-- The integral part of the exponent is split off. -/
structure Splits (bounds : Bounds) (b q : Rat) : Prop where
  not_isInteger : Rational.isInteger q = false
  base_pos : 0 < b
  den_lt : q.den < rootBound
  num_ne : q.num ≠ Rational.leastInt64
  num_le : q.num.natAbs ≤ bounds.maxExactExponent
  no_root : Rational.root? b q.den = none
  floor_ne : q.floor ≠ 0

/-- A constant to a constant power, where the exponent is not split. -/
def basicPower (bounds : Bounds) (b q : Rat) : Except Error Expr :=
  constantPower bounds (fun _ => .error .divisionByZero) b q

/-- The power of constants is left as it is. -/
def Kept (bounds : Bounds) (b q : Rat) : Prop :=
  basicPower bounds b q = .ok (.pow (.constant b) (.constant q))

/-- The factors into which a power of a constant is split. -/
def splitPower (integral b q : Rat) : List Expr :=
  [.constant integral, .pow (.constant b) (.constant (q - q.floor))]

theorem constantPower_of_splits {multiply : List Expr → Except Error Expr}
    (h : Splits bounds b q) :
    constantPower bounds multiply b q =
      (Rational.power b q.floor >>= fun integral => multiply (splitPower integral b q)) := by
  unfold constantPower
  dsimp only
  rw [if_neg (by simp [h.not_isInteger]), if_neg h.base_pos.ne', if_neg h.den_lt.not_ge,
    if_neg h.num_ne, if_neg h.num_le.not_gt, h.no_root]
  dsimp only
  rw [if_neg h.base_pos.le.not_gt, if_pos h.floor_ne]
  rfl

/-- Where nothing is split off, the rule for products is not asked. -/
theorem constantPower_of_not_splits {multiply : List Expr → Except Error Expr}
    (h : ¬ Splits bounds b q) : constantPower bounds multiply b q = basicPower bounds b q := by
  unfold basicPower constantPower
  dsimp only
  by_cases hint : Rational.isInteger q = true
  · rw [if_pos hint, if_pos hint]
  rw [if_neg hint, if_neg hint]
  by_cases hb : b = 0
  · rw [if_pos hb, if_pos hb]
  rw [if_neg hb, if_neg hb]
  by_cases hden : rootBound ≤ q.den
  · rw [if_pos hden, if_pos hden]
  rw [if_neg hden, if_neg hden]
  by_cases hleast : q.num = Rational.leastInt64
  · rw [if_pos hleast, if_pos hleast]
  rw [if_neg hleast, if_neg hleast]
  by_cases hlimit : bounds.maxExactExponent < q.num.natAbs
  · rw [if_pos hlimit, if_pos hlimit]
  rw [if_neg hlimit, if_neg hlimit]
  cases hroot : Rational.root? b q.den with
  | some root => rfl
  | none =>
    dsimp only
    by_cases hneg : b < 0
    · rw [if_pos hneg, if_pos hneg]
    rw [if_neg hneg, if_neg hneg]
    have hfloor : q.floor = 0 := by
      by_contra hfloor
      exact h ⟨by simpa using hint, lt_of_le_of_ne (not_lt.mp hneg) (Ne.symm hb), not_le.mp hden,
        hleast, not_lt.mp hlimit, hroot, hfloor⟩
    rw [if_neg (not_not.mpr hfloor), if_neg (not_not.mpr hfloor)]

/-- What becomes of a constant to a constant power, case by case. -/
inductive ConstantOutcome (bounds : Bounds) (multiply : List Expr → Except Error Expr) (b q : Rat) :
    Except Error Expr → Prop
  | refused (hleast : q.num = Rational.leastInt64) :
    ConstantOutcome bounds multiply b q (.error .leastExponent)
  | integer (hint : Rational.isInteger q = true) (hlimit : q.num.natAbs ≤ bounds.maxExactExponent) :
    ConstantOutcome bounds multiply b q (Rational.power b q.num >>= fun c => .ok (.constant c))
  | zero (hint : Rational.isInteger q = false) (hb : b = 0) (hq : 0 < q) :
    ConstantOutcome bounds multiply b q (.ok .zero)
  | undefined (hb : b = 0) (hq : q < 0) :
    ConstantOutcome bounds multiply b q (.error .divisionByZero)
  | root {r : Rat} (hint : Rational.isInteger q = false) (hroot : Rational.root? b q.den = some r)
    (hlimit : q.num.natAbs ≤ bounds.maxExactExponent) :
    ConstantOutcome bounds multiply b q (Rational.power r q.num >>= fun c => .ok (.constant c))
  | split (h : Splits bounds b q) :
    ConstantOutcome bounds multiply b q
      (Rational.power b q.floor >>= fun integral => multiply (splitPower integral b q))
  | radical (hq : q = 1 / 2) (hb : 0 < b) (hlimit : 1 ≤ bounds.maxExactExponent)
    (hroot : Rational.root? b 2 = none) : ConstantOutcome bounds multiply b q (.ok (radical b q))
  | kept : ConstantOutcome bounds multiply b q (.ok (.pow (.constant b) (.constant q)))

theorem constantPower_outcome (multiply : List Expr → Except Error Expr) (b q : Rat) :
    ConstantOutcome bounds multiply b q (constantPower bounds multiply b q) := by
  unfold constantPower
  dsimp only
  by_cases hint : Rational.isInteger q = true
  · rw [if_pos hint]
    split
    · next hleast => exact .refused hleast
    split
    · next hlimit => exact .integer hint hlimit
    · split
      · next hzero =>
        simp only [Bool.and_eq_true, decide_eq_true_eq] at hzero
        exact .undefined hzero.1 hzero.2
      · exact .kept
  rw [if_neg hint]
  rw [Bool.not_eq_true] at hint
  by_cases hb : b = 0
  · rw [if_pos hb]
    split
    · next hpos => exact .zero hint hb hpos
    · next hneg =>
      have hq : q ≠ 0 := by
        rintro rfl
        cases hint
      exact .undefined hb (lt_of_le_of_ne (not_lt.mp hneg) hq)
  rw [if_neg hb]
  split
  · exact .kept
  next hden =>
  split
  · next hleast => exact .refused hleast
  next hleast =>
  split
  · exact .kept
  next hlimit =>
  have hlimit := not_lt.mp hlimit
  cases hroot : Rational.root? b q.den with
  | some r => exact .root hint hroot hlimit
  | none =>
    dsimp only
    split
    · exact .kept
    next hnonneg =>
    have hpos : 0 < b := lt_of_le_of_ne (not_lt.mp hnonneg) (Ne.symm hb)
    split
    · next hfloor => exact .split ⟨hint, hpos, not_le.mp hden, hleast, hlimit, hroot, hfloor⟩
    next hfloor =>
    split
    · next htwo =>
      have hhalf := eq_half hint (not_not.mp hfloor) htwo
      rw [hhalf, num_half, Int.natAbs_one] at hlimit
      rw [htwo] at hroot
      exact .radical hhalf hpos hlimit hroot
    · exact .kept

/-- A power is refused if its exponent has the least numerator, except that zero keeps its own rule and
that denominators out of bounds are no roots. -/
theorem constantPower_refused {multiply : List Expr → Except Error Expr}
    (hleast : q.num = Rational.leastInt64)
    (hroot : Rational.isInteger q = true ∨ b ≠ 0 ∧ q.den < rootBound) :
    constantPower bounds multiply b q = .error .leastExponent := by
  unfold constantPower
  dsimp only
  by_cases hint : Rational.isInteger q = true
  · rw [if_pos hint, if_pos hleast]
    rfl
  · obtain ⟨hb, hden⟩ := hroot.resolve_left hint
    rw [if_neg hint, if_neg hb, if_neg hden.not_ge, if_pos hleast]
    rfl

theorem basicPower_outcome (b q : Rat) :
    ConstantOutcome bounds (fun _ => .error .divisionByZero) b q (basicPower bounds b q) :=
  constantPower_outcome _ b q

theorem Kept.not_splits (h : Kept bounds b q) : ¬ Splits bounds b q := by
  intro hsplits
  unfold Kept basicPower at h
  rw [constantPower_of_splits hsplits, bind_eq_ok] at h
  obtain ⟨integral, -, h⟩ := h
  cases h

theorem Kept.constantPower {multiply : List Expr → Except Error Expr} (h : Kept bounds b q) :
    constantPower bounds multiply b q = .ok (.pow (.constant b) (.constant q)) := by
  rw [constantPower_of_not_splits h.not_splits]
  exact h

/-! ## Square roots -/

/-- The exponent `1/2` is within the limits. -/
theorem half_within (hlimit : 1 ≤ bounds.maxExactExponent) :
    ¬ rootBound ≤ (1 / 2 : Rat).den ∧ (1 / 2 : Rat).num ≠ Rational.leastInt64 ∧
      ¬ bounds.maxExactExponent < (1 / 2 : Rat).num.natAbs := by
  rw [den_half, num_half]
  exact ⟨by decide, by decide, hlimit.not_gt⟩

/-- The square root of a rational that has one is computed. -/
theorem constantPower_half_of_root {multiply : List Expr → Except Error Expr} (hb : b ≠ 0)
    (hlimit : 1 ≤ bounds.maxExactExponent) {r : Rat} (hroot : Rational.root? b 2 = some r) :
    constantPower bounds multiply b (1 / 2) = .ok (.constant r) := by
  have hpower : Rational.power r (1 / 2 : Rat).num = .ok r := by
    rw [num_half]
    show Except.ok (Rat.pow r 1) = _
    exact congrArg Except.ok (pow_one r)
  obtain ⟨hden, hleast, hnum⟩ := half_within hlimit
  unfold constantPower
  dsimp only
  rw [if_neg (by simp [Rational.isInteger]), if_neg hb, if_neg hden, if_neg hleast, if_neg hnum,
    den_half, hroot]
  dsimp only
  rw [hpower]
  rfl

/-- The square root of a positive rational that has none among the rationals gives up its square
factors. -/
theorem constantPower_half {multiply : List Expr → Except Error Expr} (hb : 0 < b)
    (hlimit : 1 ≤ bounds.maxExactExponent) (hroot : Rational.root? b 2 = none) :
    constantPower bounds multiply b (1 / 2) = .ok (radical b (1 / 2)) := by
  have hfloor : (1 / 2 : Rat).floor = 0 := by rw [Rat.floor_def, den_half, num_half]; rfl
  obtain ⟨hden, hleast, hnum⟩ := half_within hlimit
  unfold constantPower
  dsimp only
  rw [if_neg (by simp [Rational.isInteger]), if_neg hb.ne', if_neg hden, if_neg hleast,
    if_neg hnum, den_half, hroot]
  dsimp only
  rw [if_neg hb.le.not_gt, if_neg (not_not.mpr hfloor), if_pos rfl]
  rfl

/-- A square root without square factors is kept. -/
theorem kept_half {d : Int} (hd : 0 < d) (hlimit : 1 ≤ bounds.maxExactExponent)
    (hroot : Rational.root? d 2 = none) (hfree : Rational.extractSquares d = (1, d)) :
    Kept bounds d (1 / 2) := by
  have hpos : (0 : Rat) < d := by exact_mod_cast hd
  unfold Kept basicPower
  rw [constantPower_half hpos hlimit hroot]
  unfold radical
  rw [Rat.num_intCast, Rat.den_intCast, Nat.cast_one, mul_one, hfree]
  dsimp only
  rw [if_pos (by decide)]

/-- A positive rational is the square of what leaves the radical times what stays under it, and that has no
square factors. -/
theorem exists_radical (q : Rat) (hb : 0 < b) :
    ∃ (c : Rat) (d : Int), 0 < c ∧ 0 < d ∧ c ^ 2 * d = b ∧ Rational.extractSquares d = (1, d) ∧
      radical b q = if c = 1 then .pow (.constant b) (.constant q)
        else .mul [.constant c, .pow (.constant d) (.constant q)] := by
  have hv : 0 < b.num * b.den := mul_pos (Rat.num_pos.mpr hb) (by exact_mod_cast b.den_pos)
  obtain ⟨hout, hin, heq⟩ := Rational.extractSquares_spec hv
  have hfree := Rational.extractSquares_extractSquares hv
  unfold radical
  generalize Rational.extractSquares (b.num * b.den) = squares at *
  obtain ⟨outside, inside⟩ := squares
  refine ⟨mkRat outside b.den, inside, ?_, hin, ?_, hfree, rfl⟩
  · rw [Rat.mkRat_eq_div]
    have := b.den_pos
    positivity
  · have hden : (b.den : Rat) ≠ 0 := by exact_mod_cast b.den_nz
    have hcast : (outside : Rat) * outside * inside = b.num * b.den := by exact_mod_cast heq
    rw [Rat.mkRat_eq_div]
    conv_rhs => rw [← Rat.num_div_den b]
    field_simp
    push_cast
    linarith

/-- The square root of a positive rational that has none among the rationals is kept, or becomes
a coefficient in front of a square root that is kept. -/
theorem radical_eq (hb : 0 < b) (hlimit : 1 ≤ bounds.maxExactExponent)
    (hroot : Rational.root? b 2 = none) :
    radical b (1 / 2) = .pow (.constant b) (.constant (1 / 2)) ∨
      ∃ c d : Rat, c ≠ 1 ∧ c ≠ 0 ∧ 0 < d ∧ Kept bounds d (1 / 2) ∧
        radical b (1 / 2) = .mul [.constant c, .pow (.constant d) (.constant (1 / 2))] := by
  obtain ⟨c, d, hc, hd, hbase, hfree, heq⟩ := exists_radical (1 / 2) hb
  have hdpos : (0 : Rat) < d := by exact_mod_cast hd
  have hinside : Rational.root? d 2 = none := by
    -- A root of the inside would make `b` a square.
    cases hs : Rational.root? d 2 with
    | none => rfl
    | some s =>
      obtain ⟨hsq, hspos⟩ := Rational.pow_of_root? hdpos hs
      have hb' : b = (c * s) * (c * s) := by linear_combination -hbase - c * c * hsq
      rw [hb', Rational.root?_mul_self (mul_pos hc hspos)] at hroot
      cases hroot
  rw [heq]
  split
  · exact .inl rfl
  · next hone => exact .inr ⟨c, d, hone, hc.ne', hdpos, kept_half hd hlimit hinside hfree, rfl⟩

/-! ## What a power of constants becomes -/

/-- The forms that a power of constants can have where nothing is split off. -/
inductive BasicForm (bounds : Bounds) (b q : Rat) : Expr → Prop
  | constant (c : Rat) (h : Rational.isInteger q = true ∧ Rational.power b q.num = .ok c ∨
      Rational.isInteger q = false ∧ (b = 0 ∨ Rational.root? b q.den ≠ none)) :
    BasicForm bounds b q (.constant c)
  | kept (h : Kept bounds b q) : BasicForm bounds b q (.pow (.constant b) (.constant q))
  | radical (c d : Rat) (hq : q = 1 / 2) (hb : 0 < b) (hc : c ≠ 1) (hc' : c ≠ 0) (hd : 0 < d)
    (hkept : Kept bounds d (1 / 2)) :
    BasicForm bounds b q (.mul [.constant c, .pow (.constant d) (.constant (1 / 2))])

theorem basicPower_eq_ok {r : Expr} (h : basicPower bounds b q = .ok r) :
    BasicForm bounds b q r := by
  have houtcome := (h ▸ basicPower_outcome b q : ConstantOutcome bounds _ b q (.ok r))
  generalize hresult : Except.ok r = result at houtcome
  cases houtcome with
  | integer hint =>
    obtain ⟨c, hpower, hc⟩ := bind_eq_ok.mp hresult.symm
    cases hc
    exact .constant c (.inl ⟨hint, hpower⟩)
  | zero hint hb =>
    cases hresult
    exact .constant 0 (.inr ⟨hint, .inl hb⟩)
  | refused | undefined => cases hresult
  | root hint hroot =>
    obtain ⟨c, -, hc⟩ := bind_eq_ok.mp hresult.symm
    cases hc
    exact .constant c (.inr ⟨hint, .inr (by simp [hroot])⟩)
  | split =>
    obtain ⟨integral, -, hi⟩ := bind_eq_ok.mp hresult.symm
    cases hi
  | radical hq hb hlimit hroot =>
    cases hresult
    rw [hq] at h ⊢
    rcases radical_eq hb hlimit hroot with heq | ⟨c, d, hc, hc', hd, hkept, heq⟩
    · rw [heq] at h ⊢
      exact .kept h
    · rw [heq]
      exact .radical c d rfl hb hc hc' hd hkept
  | kept =>
    cases hresult
    exact .kept h

/-- A power that is kept and is no integer power has a base other than `0`. -/
theorem Kept.base_ne_zero (h : Kept bounds b q) (hint : Rational.isInteger q = false) : b ≠ 0 := by
  rintro rfl
  unfold Kept basicPower Canonical.constantPower at h
  dsimp only at h
  rw [if_neg (by simp [hint]), if_pos rfl] at h
  split at h <;> cases h

/-- The integer powers that are kept are those beyond the limit. -/
theorem Kept.limit_lt (h : Kept bounds b q) (hint : Rational.isInteger q = true) :
    bounds.maxExactExponent < q.num.natAbs := by
  by_contra hle
  unfold Kept basicPower Canonical.constantPower at h
  dsimp only at h
  rw [if_pos hint] at h
  split at h
  · cases h
  rw [if_pos (not_lt.mp hle)] at h
  obtain ⟨c, -, hc⟩ := bind_eq_ok.mp h
  cases hc

/-- The fraction that is left is not split again. -/
theorem not_splits_fraction (bounds : Bounds) (b q : Rat) : ¬ Splits bounds b (q - q.floor) :=
  fun hf => hf.floor_ne (floor_fraction q)

/-- The power to the fraction that is left is no constant. -/
theorem Splits.isConstant_fraction (h : Splits bounds b q) {r : Expr}
    (hr : basicPower bounds b (q - q.floor) = .ok r) : r.isConstant = false := by
  cases basicPower_eq_ok hr with
  | constant c hc =>
    rw [isInteger_fraction, den_fraction, h.not_isInteger, h.no_root] at hc
    have := h.base_pos.ne'
    simp_all
  | kept => rfl
  | radical => rfl

/-- A base that is split has no exact root, so it is not `1`. -/
theorem Splits.base_ne_one (h : Splits bounds b q) : b ≠ 1 := by
  rintro rfl
  have hroot := h.no_root
  simp [Rational.root?, q.den_nz, Rational.exactNatRoot?] at hroot

/-! ## Splitting -/

theorem power_ne_zero {n : Int} {c : Rat} (hb : b ≠ 0) (h : Rational.power b n = .ok c) :
    c ≠ 0 := by
  have hpow : Rat.pow b n.natAbs ≠ 0 := pow_ne_zero n.natAbs hb
  unfold Rational.power Rational.reciprocal Rational.divide at h
  split at h
  · cases h
  · split at h
    · cases h
      exact one_div_ne_zero hpow
    · cases h
      exact hpow

/-- A coefficient in front of a power that is no constant and no sum. -/
def withCoefficient (c : Rat) (p : Expr) : Expr :=
  if c = 1 then p else .mul [.constant c, p]

theorem BasicForm.isAdd {r : Expr} (h : BasicForm bounds b q r) : r.isAdd = false := by
  cases h <;> rfl

theorem assemble_singleton {c : Rat} {p : Expr} (hc : c ≠ 0) (hp : p.isConstant = false)
    (hadd : p.isAdd = false) : assemble c [p] = withCoefficient c p := by
  have hsort : Expr.sort [p, .constant c] = [.constant c, p] :=
    Expr.sort_eq_of_perm (List.Perm.swap _ _ _) (by simp [Expr.Ascending, Expr.constant_le hp])
  unfold assemble withCoefficient
  rw [if_neg hc]
  split
  · next h => cases h
  · next h =>
    cases h
    cases hadd
  · split
    · rw [Expr.sort, List.mergeSort_singleton]
      rfl
    · rw [List.singleton_append, hsort]
      rfl

theorem ofFactors_splitPower (integral b q : Rat) :
    PowerProduct.ofFactors (splitPower integral b q) =
      ⟨integral, [(.constant b, [.constant (q - q.floor)])]⟩ := by
  simp [PowerProduct.ofFactors, splitPower, Expr.factorsList, Expr.factors,
    PowerProduct.addFactor, PowerProduct.one, PowerProduct.addPower]

/-- The factors of a split power are multiplied without further ado, where `P` gives the power
to the fraction. -/
theorem constantPower_splits {P : Expr → Expr → Except Error Expr} (h : Splits bounds b q)
    (hP : P (.constant b) (.constant (q - q.floor)) = basicPower bounds b (q - q.floor)) :
    constantPower bounds (multiplyWith P) b q =
      (Rational.power b q.floor >>= fun integral =>
        basicPower bounds b (q - q.floor) >>= fun p => .ok (withCoefficient integral p)) := by
  rw [constantPower_of_splits h]
  cases hpower : Rational.power b q.floor with
  | error e => rfl
  | ok integral =>
    show multiplyWith P (splitPower integral b q) =
      (basicPower bounds b (q - q.floor) >>= fun p => .ok (withCoefficient integral p))
    have hne := power_ne_zero h.base_pos.ne' hpower
    unfold multiplyWith
    dsimp only
    rw [ofFactors_splitPower, if_neg hne, List.mapM_cons, List.mapM_nil]
    dsimp only [addExponents]
    rw [hP]
    cases hfraction : basicPower bounds b (q - q.floor) with
    | error e => rfl
    | ok p =>
      have hp := h.isConstant_fraction hfraction
      have hnone : p.constant?.isNone = true := by
        simpa [Expr.isConstant] using hp
      have hpart : constantPart [p] = 1 := by
        cases p <;> first | rfl | cases hp
      show Except.ok (assemble (integral * constantPart [p])
        ([p].filter fun e => e.constant?.isNone)) = .ok (withCoefficient integral p)
      rw [hpart, mul_one, List.filter_cons, if_pos hnone, List.filter_nil,
        assemble_singleton hne hp (basicPower_eq_ok hfraction).isAdd]

/-- The forms that a power of constants can have. -/
inductive ConstantForm (bounds : Bounds) (b q : Rat) : Expr → Prop
  | basic {r : Expr} (h : basicPower bounds b q = .ok r) : ConstantForm bounds b q r
  | split {p : Expr} (integral : Rat) (h : Splits bounds b q) (hne : integral ≠ 0)
    (hp : basicPower bounds b (q - q.floor) = .ok p) :
    ConstantForm bounds b q (withCoefficient integral p)

theorem constantPower_eq_ok {P : Expr → Expr → Except Error Expr} {r : Expr}
    (hP : Splits bounds b q →
      P (.constant b) (.constant (q - q.floor)) = basicPower bounds b (q - q.floor))
    (h : constantPower bounds (multiplyWith P) b q = .ok r) : ConstantForm bounds b q r := by
  by_cases hsplits : Splits bounds b q
  · rw [constantPower_splits hsplits (hP hsplits)] at h
    obtain ⟨integral, hi, h⟩ := bind_eq_ok.mp h
    obtain ⟨p, hp, h⟩ := bind_eq_ok.mp h
    cases h
    exact .split integral hsplits (power_ne_zero hsplits.base_pos.ne' hi) hp
  · rw [constantPower_of_not_splits hsplits] at h
    exact .basic h

end ClosedForm.Canonical
