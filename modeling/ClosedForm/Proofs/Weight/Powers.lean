import ClosedForm.Proofs.Weight.Products

/-!
# The rule for powers and weights

A power weighs no more than the node it is made from (`weight_power`). The exponents of one base
weigh more one by one than the power to their sum: for most bases since a power pays a constant
for its exponent, and for powers of constants to fractions since these weigh enough for the
coefficients that may come out of them (`weight_collect`).
-/

namespace ClosedForm

open ClosedForm.Expr Canonical

variable (bounds : Bounds)

/-- The expression is an integer constant. -/
def Expr.isIntegerConstant : Expr → Bool
  | .constant q => Rational.isInteger q
  | _ => false

theorem isIntegerConstant_iff {e : Expr} :
    e.isIntegerConstant = true ↔ ∃ n, e = .constant n ∧ Rational.isInteger n = true := by
  cases e <;> simp [Expr.isIntegerConstant]

/-! ## The weight of a power -/

theorem weight_pow_constants {b q : Rat} (hq : Rational.isInteger q = false) :
    weight bounds (.pow (.constant b) (.constant q)) = constantPowerWeight bounds b q := by
  rw [weight]
  unfold powerWeight
  dsimp only
  rw [if_neg (by simp [hq])]

theorem weight_pow_plain {base exponent : Expr} (hinteger : exponent.isIntegerConstant = false)
    (hconstant : exponent.isConstant = true → base.isConstant = false) :
    weight bounds (.pow base exponent) = 2 * weight bounds base + termWeight bounds exponent + 6 := by
  rw [weight]
  unfold powerWeight
  cases exponent with
  | constant q =>
    have hbase := hconstant rfl
    have hq : Rational.isInteger q = false := hinteger
    dsimp only
    rw [if_neg (by simp [hq])]
    cases base with
    | constant b => cases hbase
    | _ => rfl
  | _ => rfl

theorem three_le_constantPowerWeight (b q : Rat) : 3 ≤ constantPowerWeight bounds b q := by
  unfold constantPowerWeight
  split
  · split <;> omega
  · omega

theorem constantPowerWeight_le (b q : Rat) : constantPowerWeight bounds b q ≤ 6 := by
  unfold constantPowerWeight
  split
  · split <;> omega
  · omega

/-- How the weight of a power depends on base and exponent, in the three cases. -/
theorem weight_pow_cases (base exponent : Expr) :
    (∃ n, exponent = .constant n ∧ Rational.isInteger n = true ∧
      weight bounds (.pow base exponent) = 2 * weight bounds base) ∨
    (∃ b q, base = .constant b ∧ exponent = .constant q ∧ Rational.isInteger q = false ∧
      weight bounds (.pow base exponent) = constantPowerWeight bounds b q) ∨
    (exponent.isIntegerConstant = false ∧
      (exponent.isConstant = true → base.isConstant = false) ∧
      weight bounds (.pow base exponent) =
        2 * weight bounds base + termWeight bounds exponent + 6) := by
  cases hinteger : exponent.isIntegerConstant with
  | true =>
    obtain ⟨n, rfl, hn⟩ := isIntegerConstant_iff.mp hinteger
    exact .inl ⟨n, rfl, hn, weight_pow_integer bounds hn⟩
  | false =>
    by_cases hconstants : exponent.isConstant = true ∧ base.isConstant = true
    · obtain ⟨⟨q, rfl⟩, ⟨b, rfl⟩⟩ := hconstants.imp isConstant_iff.mp isConstant_iff.mp
      exact .inr (.inl ⟨b, q, rfl, rfl, hinteger, weight_pow_constants bounds hinteger⟩)
    · have hconstant : exponent.isConstant = true → base.isConstant = false :=
        fun h => Bool.eq_false_iff.mpr fun h' => hconstants ⟨h, h'⟩
      exact .inr (.inr ⟨rfl, hconstant, weight_pow_plain bounds hinteger hconstant⟩)

theorem weight_pow_le (base exponent : Expr) :
    weight bounds (.pow base exponent) ≤
      2 * weight bounds base + termWeight bounds exponent + 6 := by
  rcases weight_pow_cases bounds base exponent with ⟨n, -, -, h⟩ | ⟨b, q, -, -, -, h⟩ | ⟨-, -, h⟩
  · omega
  · have := constantPowerWeight_le bounds b q
    omega
  · omega

/-! ## Factors of one base -/

theorem weight_le_factorWeight (base exponent : Expr) :
    weight bounds base ≤ factorWeight bounds base exponent := by
  unfold factorWeight
  split
  · exact Nat.le_refl _
  · rcases weight_pow_cases bounds base exponent with ⟨n, -, -, h⟩ | ⟨b, q, rfl, -, -, h⟩ | ⟨-, -, h⟩
    · omega
    · have := three_le_constantPowerWeight bounds b q
      have := weight_constant_le bounds b
      omega
    · omega

theorem termWeight_le_factorWeight (base exponent : Expr) :
    termWeight bounds exponent ≤ factorWeight bounds base exponent := by
  unfold factorWeight
  split
  · next hone =>
    rw [hone, Expr.one, termWeight_constant]
    exact Nat.zero_le _
  · rcases weight_pow_cases bounds base exponent with ⟨n, rfl, -, h⟩ | ⟨b, q, -, rfl, -, h⟩ | ⟨-, -, h⟩
    · rw [termWeight_constant]
      exact Nat.zero_le _
    · rw [termWeight_constant]
      exact Nat.zero_le _
    · omega

theorem factorWeight_of_ne_one {base exponent : Expr} (h : exponent ≠ .one) :
    factorWeight bounds base exponent = weight bounds (.pow base exponent) :=
  if_neg h

theorem ne_one_of_not_isIntegerConstant {e : Expr} (h : e.isIntegerConstant = false) :
    e ≠ .one := by
  rintro rfl
  cases h

theorem le_exponentsWeight {base : Expr} {es : List Expr} {n : Nat}
    (h : ∀ e ∈ es, n ≤ factorWeight bounds base e) :
    es.length * n ≤ exponentsWeight bounds base es := by
  unfold exponentsWeight
  induction es with
  | nil => simp
  | cons e es ih =>
    have he := h e (by simp)
    have hes := ih fun f hf => h f (by simp [hf])
    rw [List.length_cons, Nat.succ_mul, List.map_cons, List.sum_cons]
    omega

theorem exponentsWeight_append_cons (base e : Expr) (es fs : List Expr) :
    exponentsWeight bounds base (es ++ e :: fs) =
      factorWeight bounds base e + exponentsWeight bounds base (es ++ fs) := by
  simp only [exponentsWeight, List.map_append, List.map_cons, List.sum_append, List.sum_cons]
  omega

theorem factorWeight_le_exponentsWeight {base e : Expr} {es : List Expr} (he : e ∈ es) :
    factorWeight bounds base e ≤ exponentsWeight bounds base es := by
  obtain ⟨l, l', rfl⟩ := List.append_of_mem he
  rw [exponentsWeight_append_cons]
  omega

/-- A power of a constant to an exponent that is no integer weighs three at least. -/
theorem three_le_factorWeight {b : Rat} {e : Expr} (h : e.isIntegerConstant = false) :
    3 ≤ factorWeight bounds (.constant b) e := by
  rw [factorWeight_of_ne_one bounds (ne_one_of_not_isIntegerConstant h)]
  rcases weight_pow_cases bounds (.constant b) e with ⟨n, rfl, hn, -⟩ | ⟨c, q, -, -, -, hweight⟩ | ⟨-, -, hweight⟩
  · rw [Expr.isIntegerConstant, hn] at h
    cases h
  · have := three_le_constantPowerWeight bounds c q
    omega
  · omega

/-- One of the exponents pays for itself, and the others at least their weight as terms. -/
theorem exponentsWeight_of_mem {base e : Expr} {es : List Expr} (he : e ∈ es) :
    factorWeight bounds base e + termWeights bounds es ≤
      exponentsWeight bounds base es + termWeight bounds e := by
  have hall : ∀ fs : List Expr, termWeights bounds fs ≤ exponentsWeight bounds base fs := by
    intro fs
    induction fs with
    | nil => exact Nat.le_refl _
    | cons f fs ih =>
      have hf := termWeight_le_factorWeight bounds base f
      unfold exponentsWeight at ih ⊢
      rw [termWeights_cons, List.map_cons, List.sum_cons]
      omega
  induction es with
  | nil => cases he
  | cons f fs ih =>
    have hf := termWeight_le_factorWeight bounds base f
    have hfs := hall fs
    unfold exponentsWeight at ih hfs ⊢
    rw [termWeights_cons, List.map_cons, List.sum_cons]
    rcases List.mem_cons.mp he with rfl | he
    · omega
    · have := ih he
      omega

namespace Canonical

/-! ## Sums of constants -/

theorem isInteger_iff {q : Rat} : Rational.isInteger q = true ↔ ∃ n : Int, q = n := by
  constructor
  · intro h
    have hden : q.den = 1 := by simpa [Rational.isInteger] using h
    exact ⟨q.num, (Rat.den_eq_one_iff q).mp hden |>.symm⟩
  · rintro ⟨n, rfl⟩
    simp [Rational.isInteger]

/-- The value of a constant, and `0` for other expressions. -/
def constantValue (e : Expr) : Rat :=
  e.constant?.getD 0

theorem gatherList_constants {es : List Expr} (h : ∀ e ∈ es, e.isConstant = true)
    (form : LinearForm) :
    LinearForm.gatherList 1 form es =
      ⟨form.constant + (es.map constantValue).sum, form.terms⟩ := by
  induction es generalizing form with
  | nil => simp [LinearForm.gatherList]
  | cons e es ih =>
    obtain ⟨c, rfl⟩ := isConstant_iff.mp (h e (by simp))
    rw [LinearForm.gatherList, LinearForm.gather, ih fun f hf => h f (by simp [hf])]
    simp [constantValue, constant?, add_assoc]

/-- Constants add up to a constant. -/
theorem add_constants {es : List Expr} (h : ∀ e ∈ es, e.isConstant = true) :
    add es = .constant (es.map constantValue).sum := by
  rw [add, gatherList_constants h, LinearForm.zero, zero_add, LinearForm.toExpr]
  by_cases hzero : (es.map constantValue).sum = 0
  · simp [hzero, Expr.sort, Expr.sum, Expr.zero]
  · rw [if_neg hzero, List.filterMap_nil, List.append_nil, Expr.sort, List.mergeSort_singleton]
    rfl

theorem add_all_constants (qs : List Rat) : add (qs.map .constant) = .constant qs.sum := by
  rw [add_constants (by simp [isConstant, constant?]), List.map_map]
  congr 2
  exact List.map_id _

theorem exists_integer_sum {es : List Expr} (h : ∀ e ∈ es, e.isIntegerConstant = true) :
    ∃ n : Int, (es.map constantValue).sum = n := by
  induction es with
  | nil => exact ⟨0, rfl⟩
  | cons e es ih =>
    obtain ⟨c, rfl, hc⟩ := isIntegerConstant_iff.mp (h e (by simp))
    obtain ⟨m, rfl⟩ := isInteger_iff.mp hc
    obtain ⟨n, hn⟩ := ih fun f hf => h f (by simp [hf])
    exact ⟨m + n, by simp [constantValue, constant?, hn]⟩

theorem isConstant_of_isIntegerConstant {e : Expr} (h : e.isIntegerConstant = true) :
    e.isConstant = true := by
  obtain ⟨n, rfl, -⟩ := isIntegerConstant_iff.mp h
  rfl

/-- An exponent that is no integer constant collects such an exponent. -/
theorem exists_not_isIntegerConstant {es : List Expr} (h : (add es).isIntegerConstant = false) :
    ∃ e ∈ es, e.isIntegerConstant = false := by
  by_contra hall
  simp only [not_exists, not_and, Bool.not_eq_false] at hall
  obtain ⟨n, hn⟩ := exists_integer_sum hall
  rw [add_constants fun e he => isConstant_of_isIntegerConstant (hall e he), hn] at h
  have htrue : Rational.isInteger (n : Rat) = true := isInteger_iff.mpr ⟨n, rfl⟩
  rw [Expr.isIntegerConstant, htrue] at h
  cases h

theorem exists_not_isConstant {es : List Expr} (h : (add es).isConstant = false) :
    ∃ e ∈ es, e.isConstant = false := by
  by_contra hall
  simp only [not_exists, not_and, Bool.not_eq_false] at hall
  rw [add_constants hall] at h
  cases h

/-! ## Collected exponents -/

/-- Unless a constant is raised to a fraction, a base to the sum of some exponents weighs no
more than its powers to each of them. -/
theorem weight_pow_add {base : Expr} {es : List Expr} (hlength : 2 ≤ es.length)
    (h : (add es).isConstant = true → base.isConstant = true →
      (add es).isIntegerConstant = true) :
    weight bounds (.pow base (add es)) ≤ exponentsWeight bounds base es := by
  rcases weight_pow_cases bounds base (add es) with
    ⟨n, -, -, hweight⟩ | ⟨b, q, rfl, hq, hfraction, -⟩ | ⟨hinteger, hconstant, hweight⟩
  · have hle := le_exponentsWeight bounds fun e (_ : e ∈ es) => weight_le_factorWeight bounds base e
    have := Nat.mul_le_mul_right (weight bounds base) hlength
    omega
  · have htrue := h (by rw [hq]; rfl) rfl
    rw [hq] at htrue
    exact absurd (hfraction.symm.trans htrue) (by simp)
  · -- Some exponent pays the constant for all of them.
    obtain ⟨e, he, hnot, hplain⟩ : ∃ e ∈ es, e.isIntegerConstant = false ∧
        (e.isConstant = true → base.isConstant = false) := by
      cases hbase : base.isConstant with
      | false =>
        obtain ⟨e, he, hnot⟩ := exists_not_isIntegerConstant hinteger
        exact ⟨e, he, hnot, fun _ => rfl⟩
      | true =>
        have hsum : (add es).isConstant = false := by
          cases hsum : (add es).isConstant with
          | false => rfl
          | true => exact absurd (hconstant hsum) (by simp [hbase])
        obtain ⟨e, he, hnot⟩ := exists_not_isConstant hsum
        refine ⟨e, he, ?_, fun htrue => by rw [hnot] at htrue; cases htrue⟩
        cases hint : e.isIntegerConstant with
        | false => rfl
        | true => rw [isConstant_of_isIntegerConstant hint] at hnot; cases hnot
    have hmem : factorWeight bounds base e + termWeights bounds es ≤
        exponentsWeight bounds base es + termWeight bounds e := exponentsWeight_of_mem bounds he
    rw [factorWeight_of_ne_one bounds (ne_one_of_not_isIntegerConstant hnot),
      weight_pow_plain bounds hnot hplain] at hmem
    have hterm := termWeight_add_le bounds es
    omega

/-- Integers change a sum of constants by an integer. -/
theorem exists_sum_of_integers {q q₀ : Rat} {l l' : List Expr}
    (hall : ∀ f ∈ l ++ l', f.isIntegerConstant = true)
    (hsum : add (l ++ .constant q₀ :: l') = .constant q) : ∃ m : Int, q = q₀ + m := by
  obtain ⟨m, hm⟩ := exists_integer_sum hall
  have hconstants : ∀ f ∈ l ++ Expr.constant q₀ :: l', f.isConstant = true := by
    intro f hf
    rcases List.mem_append.mp hf with hf | hf
    · exact isConstant_of_isIntegerConstant (hall f (by simp [hf]))
    · rcases List.mem_cons.mp hf with rfl | hf
      · rfl
      · exact isConstant_of_isIntegerConstant (hall f (by simp [hf]))
  refine ⟨m, ?_⟩
  rw [add_constants hconstants, Expr.constant.injEq] at hsum
  rw [← hsum, ← hm]
  simp only [List.map_append, List.map_cons, List.sum_append, List.sum_cons, constantValue, constant?,
    Option.getD_some]
  ring

/-- Integral exponents weigh as much as their base, and twice as much unless one of them is `1`. -/
theorem exponentsWeight_of_integers (base : Expr) {es : List Expr} (hlength : 1 ≤ es.length)
    (hall : ∀ f ∈ es, f.isIntegerConstant = true) :
    weight bounds base ≤ exponentsWeight bounds base es ∧
      (.one ∉ es → 2 * weight bounds base ≤ exponentsWeight bounds base es) := by
  constructor
  · have hother := le_exponentsWeight bounds fun f (_ : f ∈ es) => weight_le_factorWeight bounds base f
    have hmul := Nat.mul_le_mul_right (weight bounds base) hlength
    omega
  · intro hone
    have htwice : ∀ f ∈ es, 2 * weight bounds base ≤ factorWeight bounds base f := by
      intro f hf
      obtain ⟨n, rfl, hn⟩ := isIntegerConstant_iff.mp (hall f hf)
      rw [factorWeight_of_ne_one bounds fun heq => hone (heq ▸ hf), weight_pow_integer bounds hn]
    have hother := le_exponentsWeight bounds htwice
    have hmul := Nat.mul_le_mul_right (2 * weight bounds base) hlength
    omega

/-- The exponents of a constant that add up to a fraction: they weigh as much as any power of
constants, or all but one of them are integers. -/
theorem exponentsWeight_of_fraction {b q : Rat} {es : List Expr} (hlength : 2 ≤ es.length)
    (hsum : add es = .constant q) (hq : Rational.isInteger q = false) :
    6 ≤ exponentsWeight bounds (.constant b) es ∨
      ∃ q₀, ∃ m : Int, q = q₀ + m ∧ Rational.isInteger q₀ = false ∧ Kept bounds b q₀ ∧
        constantPowerWeight bounds b q₀ + weight bounds (.constant b) ≤
          exponentsWeight bounds (.constant b) es ∧
        (.one ∉ es → constantPowerWeight bounds b q₀ + 2 * weight bounds (.constant b) ≤
          exponentsWeight bounds (.constant b) es) := by
  obtain ⟨e, he, hnot⟩ := exists_not_isIntegerConstant (by rw [hsum]; exact hq)
  have hfactor : factorWeight bounds (.constant b) e = weight bounds (.pow (.constant b) e) :=
    factorWeight_of_ne_one bounds (ne_one_of_not_isIntegerConstant hnot)
  obtain ⟨l, l', rfl⟩ := List.append_of_mem he
  rw [List.length_append, List.length_cons] at hlength
  rw [exponentsWeight_append_cons]
  cases hconstant : e.isConstant with
  | false =>
    rw [weight_pow_plain bounds hnot (by simp [hconstant])] at hfactor
    omega
  | true =>
    obtain ⟨q₀, rfl⟩ := isConstant_iff.mp hconstant
    rw [weight_pow_constants bounds hnot] at hfactor
    have hthree := three_le_constantPowerWeight bounds b q₀
    by_cases hkept : Kept bounds b q₀
    · by_cases hall : ∀ f ∈ l ++ l', f.isIntegerConstant = true
      · -- All other exponents are integers.
        obtain ⟨m, hm⟩ := exists_sum_of_integers hall hsum
        obtain ⟨honce, htwice⟩ := exponentsWeight_of_integers bounds (.constant b)
          (by rw [List.length_append]; omega) hall
        refine .inr ⟨q₀, m, hm, hnot, hkept, by omega, fun hone => ?_⟩
        have hother := htwice fun hmem => hone <| by
          rcases List.mem_append.mp hmem with hmem | hmem <;> simp [hmem]
        omega
      · simp only [not_forall, Bool.not_eq_true] at hall
        obtain ⟨f, hf, hfnot⟩ := hall
        have hthree' : 3 ≤ factorWeight bounds (.constant b) f := three_le_factorWeight bounds hfnot
        have hle : factorWeight bounds (.constant b) f ≤
            exponentsWeight bounds (.constant b) (l ++ l') :=
          factorWeight_le_exponentsWeight bounds hf
        omega
    · rw [constantPowerWeight, if_neg hkept] at hfactor
      omega

/-! ## Powers of constants -/

theorem weight_constant_power {b c : Rat} {n : Int} (h : Rational.power b n = .ok c) :
    weight bounds (.constant c) ≤ weight bounds (.constant b) := by
  have hle := weight_constant_le bounds c
  by_cases hb : b = 1 ∨ b = -1
  · have hpow : Rat.pow b n.natAbs = 1 ∨ Rat.pow b n.natAbs = -1 := by
      rcases hb with rfl | rfl
      · exact .inl (one_pow n.natAbs)
      · exact neg_one_pow_eq_or Rat n.natAbs
    have hc : c = 1 ∨ c = -1 := by
      unfold Rational.power Rational.reciprocal Rational.divide at h
      split at h
      · cases h
      · split at h
        · split at h
          · cases h
          · cases h
            rcases hpow with hpow | hpow <;> rw [hpow] <;> norm_num
        · cases h
          exact hpow
    simp [weight, hc]
  · rw [not_or] at hb
    rw [weight_constant_of_ne bounds hb.1 hb.2]
    exact hle

theorem weight_kept {b q : Rat} (hq : Rational.isInteger q = false) (h : Kept bounds b q) :
    weight bounds (.pow (.constant b) (.constant q)) = if b < 0 ∨ q.floor = 0 then 3 else 4 := by
  rw [weight_pow_constants bounds hq, constantPowerWeight, if_pos h]

theorem weight_fraction {b q : Rat} (hq : Rational.isInteger q = false)
    (h : Kept bounds b (q - q.floor)) :
    weight bounds (.pow (.constant b) (.constant (q - q.floor))) = 3 := by
  rw [weight_kept bounds (by rw [isInteger_fraction, hq]) h, if_pos (.inr (floor_fraction q))]

theorem weight_radical_le (c : Rat) {d : Rat} (h : Kept bounds d (1 / 2)) :
    weight bounds (.mul [.constant c, .pow (.constant d) (.constant (1 / 2))]) ≤ 4 := by
  have hc := weight_constant_le bounds c
  have hfloor : (1 / 2 : Rat).floor = 0 := by rw [Rat.floor_def, den_half, num_half]; rfl
  have hd := weight_kept bounds (by decide +kernel) h
  rw [if_pos (.inr hfloor)] at hd
  rw [weight_mul, weights_cons, weights_cons, weights_nil]
  omega

theorem weight_withCoefficient_le (c : Rat) (e : Expr) :
    weight bounds (withCoefficient c e) ≤ 1 + weight bounds e := by
  have hc := weight_constant_le bounds c
  unfold withCoefficient
  split
  · omega
  · rw [weight_mul, weights_cons, weights_cons, weights_nil]
    omega

/-- What a power of constants becomes: a constant, the power itself, or coefficients in front of a
power that weigh five at most. -/
theorem weight_constantForm {b q : Rat} {r : Expr} (h : ConstantForm bounds b q r) :
    (∃ c, r = .constant c ∧ (Rational.isInteger q = true →
      weight bounds (.constant c) ≤ weight bounds (.constant b))) ∨
    (r = .pow (.constant b) (.constant q) ∧ Kept bounds b q) ∨
    (Rational.isInteger q = false ∧ 0 < b ∧ ¬ Kept bounds b q ∧ weight bounds r ≤ 5 ∧
      (Kept bounds b (q - q.floor) → weight bounds r ≤ 4)) := by
  cases h with
  | basic h =>
    cases basicPower_eq_ok h with
    | constant c hc =>
      refine .inl ⟨c, rfl, fun hq => ?_⟩
      rcases hc with ⟨-, hpower⟩ | ⟨hq', -⟩
      · exact weight_constant_power bounds hpower
      · rw [hq] at hq'
        cases hq'
    | kept hkept => exact .inr (.inl ⟨rfl, hkept⟩)
    | radical c d hq hb hc hc' hd hkept =>
      have hweight := weight_radical_le bounds c hkept
      refine .inr (.inr ⟨?_, hb, fun hk => ?_, by omega, fun _ => hweight⟩)
      · rw [hq]
        decide +kernel
      · rw [Kept, h] at hk
        cases hk
  | @split p integral hs hne hp =>
    have hp4 : weight bounds p ≤ 4 := by
      cases basicPower_eq_ok hp with
      | constant c => exact (weight_constant_le bounds c).trans (by omega)
      | kept hk => rw [weight_fraction bounds hs.not_isInteger hk]; omega
      | radical c d _ _ _ _ _ hkept => exact weight_radical_le bounds c hkept
    have hcoefficient := weight_withCoefficient_le bounds integral p
    refine .inr (.inr ⟨hs.not_isInteger, hs.base_pos, fun hk => hk.not_splits hs, by omega,
      fun hk => ?_⟩)
    have heq : p = .pow (.constant b) (.constant (q - q.floor)) :=
      Except.ok.inj (hp.symm.trans hk)
    have h3 := weight_fraction bounds hs.not_isInteger hk
    rw [← heq] at h3
    omega

/-- A power of constants weighs no more than its node. -/
theorem ConstantForm.weight_le {b q : Rat} {r : Expr} (h : ConstantForm bounds b q r) :
    weight bounds r ≤ weight bounds (.pow (.constant b) (.constant q)) := by
  rcases weight_constantForm bounds h with ⟨c, rfl, hc⟩ | ⟨rfl, -⟩ | ⟨hq, -, hkept, hfive, -⟩
  · cases hq : Rational.isInteger q with
    | true =>
      have := hc hq
      rw [weight_pow_integer bounds hq]
      omega
    | false =>
      have hle := weight_constant_le bounds c
      have hthree := three_le_constantPowerWeight bounds b q
      rw [weight_pow_constants bounds hq]
      omega
  · exact Nat.le_refl _
  · rw [weight_pow_constants bounds hq, constantPowerWeight, if_neg hkept]
    omega

/-! ## Collecting the exponents of one base -/

/-- A constant to the sum of some exponents weighs no more than its powers to each of them. It
weighs less, unless it is a constant or kept, where no exponent is `1`. -/
theorem ConstantForm.weight_collect {b q : Rat} {es : List Expr} {p : Expr}
    (h : ConstantForm bounds b q p) (hb : b ≠ 1) (hlength : 2 ≤ es.length)
    (hsum : add es = .constant q) (hq : Rational.isInteger q = false) :
    weight bounds p ≤ exponentsWeight bounds (.constant b) es ∧
      (.one ∉ es → p.isConstant = true ∨
        (p = .pow (.constant b) (.constant q) ∧ Kept bounds b q) ∨
        weight bounds p < exponentsWeight bounds (.constant b) es) := by
  have hexponents := exponentsWeight_of_fraction bounds (b := b) hlength hsum hq
  have hone (hpos : 0 < b) : weight bounds (.constant b) = 1 :=
    weight_constant_of_ne bounds hb (by linarith)
  rcases weight_constantForm bounds h with ⟨c, rfl, -⟩ | ⟨rfl, hkept⟩ | ⟨-, hpos, -, hfive, hfour⟩
  · refine ⟨?_, fun _ => .inl rfl⟩
    have hc := weight_constant_le bounds c
    rcases hexponents with hsix | ⟨q₀, m, -, -, -, hle, -⟩
    · omega
    · have := three_le_constantPowerWeight bounds b q₀
      omega
  · refine ⟨?_, fun _ => .inr (.inl ⟨rfl, hkept⟩)⟩
    rw [weight_kept bounds hq hkept]
    rcases hexponents with hsix | ⟨q₀, m, -, -, -, hle, -⟩
    · split <;> omega
    · have hthree := three_le_constantPowerWeight bounds b q₀
      by_cases hneg : b < 0
      · rw [if_pos (.inl hneg)]
        omega
      · have hpos : 0 < b := lt_of_le_of_ne (not_lt.mp hneg) (Ne.symm (hkept.base_ne_zero hq))
        have := hone hpos
        split <;> omega
  · have hb1 := hone hpos
    rcases hexponents with hsix | ⟨q₀, m, hq₀, hfraction, hkept, hle, hlt⟩
    · exact ⟨by omega, fun _ => .inr (.inr (by omega))⟩
    · rw [constantPowerWeight, if_pos hkept] at hle hlt
      by_cases hfloor : q₀.floor = 0
      · -- The fraction that is split off is the one that was there.
        have heq : q - q.floor = q₀ := by
          rw [hq₀, Rat.floor_add_intCast, hfloor]
          push_cast
          ring
        have h4 := hfour (heq ▸ hkept)
        rw [if_pos (.inr hfloor)] at hle hlt
        exact ⟨by omega, fun hnot => .inr (.inr (by have := hlt hnot; omega))⟩
      · rw [if_neg (by simp [hfloor, hpos.le])] at hle hlt
        exact ⟨by omega, fun hnot => .inr (.inr (by have := hlt hnot; omega))⟩

theorem power_constants {b q : Rat} {r : Expr}
    (h : power bounds (.constant b) (.constant q) = .ok r) :
    r = .one ∨ (q = 1 ∧ r = .constant b) ∨
      (b ≠ 1 ∧ q ≠ 0 ∧ q ≠ 1 ∧ ConstantForm bounds b q r) := by
  have houtcome := power_outcome h
  generalize hbase : Expr.constant b = base at houtcome
  generalize hexponent : Expr.constant q = exponent at houtcome
  generalize hresult : Except.ok r = result at houtcome
  cases houtcome with
  | one =>
    cases hresult
    exact .inl rfl
  | base =>
    injection hresult with hr
    exact .inr (.inl ⟨Expr.constant.inj hexponent, hr⟩)
  | constants hb hzero hone =>
    cases hbase
    cases hexponent
    exact .inr (.inr ⟨hb, hzero, hone, constantPower_eq_ok (fun hs => power_fraction hs) hresult.symm⟩)
  | nested => cases hbase
  | spread => cases hbase
  | imaginary => cases hbase
  | inert hinert =>
    have hnot := hinert.not_constants (by rw [← hexponent]; rfl)
    rw [← hbase] at hnot
    cases hnot

/-- The power to the collected exponents weighs no more than the factors they come from, if powers
of the base weigh no more than their nodes. -/
theorem weight_collect {base : Expr} {es : List Expr} {p : Expr}
    (hpower : ∀ e r, power bounds base e = .ok r → weight bounds r ≤ weight bounds (.pow base e))
    (h : power bounds base (addExponents es) = .ok p) :
    weight bounds p ≤ exponentsWeight bounds base es := by
  match es, h with
  | [], h =>
    have hnil : addExponents [] = .zero := add_constants (by simp)
    rw [hnil] at h
    obtain rfl := Except.ok.inj ((power_zero base).symm.trans h)
    exact Nat.le_refl 0
  | [e], h =>
    show weight bounds p ≤ factorWeight bounds base e + 0
    rw [Nat.add_zero, factorWeight]
    split
    · next hone =>
      rw [hone] at h
      obtain rfl := Except.ok.inj ((power_one base).symm.trans h)
      exact Nat.le_refl _
    · exact hpower e p h
  | e :: f :: es, h =>
    have hlength : 2 ≤ (e :: f :: es).length := by simp
    replace h : power bounds base (add (e :: f :: es)) = .ok p := h
    generalize e :: f :: es = es at *
    by_cases hfraction : ∃ b q, base = .constant b ∧ add es = .constant q ∧
        Rational.isInteger q = false
    · obtain ⟨b, q, rfl, hsum, hq⟩ := hfraction
      rw [hsum] at h
      rcases power_constants bounds h with rfl | ⟨rfl, -⟩ | ⟨hb, -, -, hform⟩
      · exact Nat.zero_le _
      · cases hq
      · exact (hform.weight_collect bounds hb hlength hsum hq).1
    · refine (hpower _ p h).trans (weight_pow_add bounds hlength fun hsum hbase => ?_)
      obtain ⟨⟨q, hsum⟩, ⟨b, rfl⟩⟩ := And.intro (isConstant_iff.mp hsum) (isConstant_iff.mp hbase)
      rw [hsum]
      by_contra hq
      exact hfraction ⟨b, q, rfl, hsum, by simpa [Expr.isIntegerConstant] using hq⟩

/-! ## The rule -/

theorem weight_pow_constants_le (b q : Rat) :
    weight bounds (.pow (.constant b) (.constant q)) ≤ 6 := by
  cases hq : Rational.isInteger q with
  | true =>
    have := weight_constant_le bounds b
    rw [weight_pow_integer bounds hq]
    omega
  | false =>
    rw [weight_pow_constants bounds hq]
    exact constantPowerWeight_le bounds b q

theorem weight_imaginaryPower (n : Int) : weight bounds (imaginaryPower n) ≤ 1 := by
  unfold imaginaryPower
  split
  · exact weight_constant_le bounds 1
  · exact Nat.le_refl _
  · exact weight_constant_le bounds _
  · simp [Expr.neg, Expr.integer, Expr.imaginaryUnit, weight]

/-- A product weighs no more than its factors, if the powers of their bases weigh no more than
their nodes. -/
theorem weight_multiply_of_power {fs : List Expr} {r : Expr}
    (hpower : ∀ f ∈ factorsList fs, f.isConstant = false → ∀ e r,
      power bounds (factorBase f) e = .ok r → weight bounds r ≤ weight bounds (.pow (factorBase f) e))
    (h : multiplyWith (power bounds) fs = .ok r) :
    weight bounds r ≤ weights bounds fs ∧
      termWeight bounds r ≤ 1 + weights bounds (nonconstants fs) := by
  refine weight_multiplyWith bounds (fun p hp q hq => ?_) h
  obtain ⟨f, hf, hconstant, hbase⟩ := PowerProduct.exists_factor_of_mem_powers hp
  refine weight_collect bounds (fun e r hr => ?_) hq
  rw [hbase] at hr ⊢
  exact hpower f hf hconstant e r hr

theorem eq_of_multiply_constants {c n : Rat} {combined : Expr}
    (h : multiplyWith (power bounds) [.constant c, .constant n] = .ok combined) :
    combined = .constant (c * n) := by
  rw [← multiply_eq, multiply_constants] at h
  exact (Except.ok.inj h).symm

theorem isInteger_mul {m n : Rat} (hm : Rational.isInteger m = true)
    (hn : Rational.isInteger n = true) : Rational.isInteger (m * n) = true := by
  obtain ⟨i, rfl⟩ := isInteger_iff.mp hm
  obtain ⟨j, rfl⟩ := isInteger_iff.mp hn
  exact isInteger_iff.mpr ⟨i * j, by push_cast; rfl⟩

/-- Multiplying an exponent inside a power that pays for it saves weight. -/
theorem weight_nested_lt {inner e combined : Expr} {n : Rat}
    (hweight : weight bounds (.pow inner e) = 2 * weight bounds inner + termWeight bounds e + 6)
    (hterm : termWeight bounds combined ≤ 1 + weights bounds (nonconstants [e, .constant n])) :
    weight bounds (.pow inner combined) < 2 * weight bounds (.pow inner e) := by
  have hnon := weights_nonconstants_le bounds [e]
  have hcons : nonconstants [e, .constant n] = nonconstants [e] := by
    cases h : e.isConstant <;> simp [nonconstants, h]
  have hle := weight_pow_le bounds inner combined
  have he := weight_le_termWeight bounds e
  rw [hcons] at hterm
  rw [weights_cons, weights_nil] at hnon
  omega

/-- An exponent that multiplies the one inside a power weighs no more than the power twice. -/
theorem weight_nested {inner e combined : Expr} {n : Rat} (hn : Rational.isInteger n = true)
    (hterm : termWeight bounds combined ≤ 1 + weights bounds (nonconstants [e, .constant n]))
    (hcombined : multiplyWith (power bounds) [e, .constant n] = .ok combined) :
    weight bounds (.pow inner combined) ≤ 2 * weight bounds (.pow inner e) := by
  rcases weight_pow_cases bounds inner e with
    ⟨m, rfl, hm, hweight⟩ | ⟨b, q, rfl, rfl, -, hweight⟩ | ⟨-, -, hweight⟩
  · rw [eq_of_multiply_constants bounds hcombined, weight_pow_integer bounds (isInteger_mul hm hn)]
    omega
  · have hthree := three_le_constantPowerWeight bounds b q
    have hsix := weight_pow_constants_le bounds b (q * n)
    rw [eq_of_multiply_constants bounds hcombined]
    omega
  · exact (weight_nested_lt bounds hweight hterm).le

theorem sum_two_mul_weight (fs : List Expr) :
    (fs.map fun f => 2 * weight bounds f).sum = 2 * weights bounds fs := by
  induction fs with
  | nil => rfl
  | cons f fs ih =>
    rw [List.map_cons, List.sum_cons, ih, weights_cons]
    omega

/-- A power weighs no more than its node. -/
theorem weight_power {base exponent r : Expr} (h : power bounds base exponent = .ok r) :
    weight bounds r ≤ weight bounds (.pow base exponent) := by
  have houtcome := power_outcome h
  generalize hresult : Except.ok r = result at houtcome
  cases houtcome with
  | one =>
    cases hresult
    exact Nat.zero_le _
  | base =>
    cases hresult
    rw [Expr.one, weight_pow_integer bounds rfl]
    omega
  | constants =>
    exact (constantPower_eq_ok (fun hs => power_fraction hs) hresult.symm).weight_le bounds
  | @nested inner e n hn =>
    obtain ⟨combined, hcombined, hr⟩ := bind_eq_ok.mp hresult.symm
    have hlt := depth_lt_pow inner e
    have hterm := (weight_multiply_of_power bounds (fun f hf _ e' r' hr' => by
      obtain ⟨g, hg, hfg⟩ := mem_factorsList.mp hf
      have hexponents : ∃ d < (Expr.pow inner e).depth, BasesWithin d g :=
        basesWithin_exponents g hg
      obtain ⟨d, hd, hwithin⟩ := hexponents
      have hdepth := hwithin f hfg
      exact weight_power hr') hcombined).2
    rw [weight_pow_integer bounds hn]
    exact (weight_power hr).trans (weight_nested bounds hn hterm hcombined)
  | @spread factors n hn =>
    obtain ⟨powers, hpowers, hr⟩ := bind_eq_ok.mp hresult.symm
    have hall := mapM_eq_ok.mp hpowers
    have hweights : weights bounds powers ≤ 2 * weights bounds factors := by
      rw [← sum_two_mul_weight]
      refine weights_le_of_forall₂ bounds (forall₂_imp_of_mem hall fun f hf p hp => ?_)
      have hdepth : f.depth < (Expr.mul factors).depth := depth_lt_of_mem_children hf
      have hp' := weight_power hp
      rw [weight_pow_integer bounds hn] at hp'
      exact hp'
    have hproduct := (weight_multiply_of_power bounds (fun f hf _ e' r' hr' => by
      obtain ⟨p, hp, hfp⟩ := mem_factorsList.mp hf
      obtain ⟨g, hg, hgp⟩ := exists_of_forall₂_right hall hp
      have hdepth := basesWithin_power hgp f hfp
      have hlt : g.depth < (Expr.mul factors).depth := depth_lt_of_mem_children hg
      exact weight_power hr') hr).1
    rw [weight_pow_integer bounds hn, weight_mul]
    omega
  | @imaginary arguments n hn =>
    cases hresult
    have := weight_imaginaryPower bounds n.num
    rw [weight_pow_integer bounds hn, weight_function]
    omega
  | inert =>
    cases hresult
    exact Nat.le_refl _
termination_by base.depth

theorem termWeight_power {base exponent r : Expr} (h : power bounds base exponent = .ok r) :
    termWeight bounds r ≤ termWeight bounds (.pow base exponent) := by
  have hle := weight_power bounds h
  have hterm := termWeight_le_weight bounds r
  rw [termWeight_of_not_isMul bounds (e := .pow base exponent) rfl rfl rfl]
  omega

/-- A product weighs no more than its factors; as a term it counts no constants. -/
theorem weight_multiply {fs : List Expr} {r : Expr} (h : multiply bounds fs = .ok r) :
    weight bounds r ≤ weights bounds fs ∧
      termWeight bounds r ≤ 1 + weights bounds (nonconstants fs) :=
  weight_multiply_of_power bounds (fun _ _ _ _ _ hr => weight_power bounds hr)
    (by rw [← multiply_eq]; exact h)

end Canonical

end ClosedForm
