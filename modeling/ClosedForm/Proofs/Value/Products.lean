import ClosedForm.Proofs.Factors
import ClosedForm.Proofs.Value.Sums

/-!
# The rule for products keeps values

`Yields` says that a computation ends with an expression of a given value, or fails for the one
reason that a power was too large. A power product has a value (`PowerProduct.value`), and
`yields_multiplyWith` says that the rule for products yields the product of the values if the
rule for powers that it is given yields the powers.
-/

namespace ClosedForm

variable {K : Type*} [Field K] [CharZero K] {M : Interpretation K} {σ : String → K}

open Interpretation

/-! ## Computations of a value -/

/-- An exact power was refused because of its exponent: it has no absolute value, or the bounds allowed
an exponent that is too large. -/
def Error.IsRefusedPower (bounds : Bounds) (e : Error) : Prop :=
  ∃ n : ℤ, e = .unsupported (.exponentTooLarge n) ∧ (n = Rational.leastInt64 ∨
    Rational.exponentBound ≤ n.natAbs ∧ n.natAbs ≤ bounds.maxExactExponent)

/-- The computation ends with an expression of the value `x`, unless a power is refused. -/
def Yields (M : Interpretation K) (σ : String → K) (bounds : Bounds) (result : Except Error Expr)
    (x : K) : Prop :=
  match result with
  | .ok e => M.value σ e = some x
  | .error e => e.IsRefusedPower bounds

variable {bounds : Bounds}

theorem Yields.bind {result : Except Error Expr} {next : Expr → Except Error Expr} {x y : K}
    (h : Yields M σ bounds result x)
    (hnext : ∀ e, M.value σ e = some x → Yields M σ bounds (next e) y) :
    Yields M σ bounds (result >>= next) y := by
  cases result with
  | error e => exact h
  | ok e => exact hnext e h

/-- The computation ends with factors whose product has the value `x`, unless a power is
refused. -/
def YieldsFactors (M : Interpretation K) (σ : String → K) (bounds : Bounds)
    (result : Except Error (List Expr)) (x : K) : Prop :=
  match result with
  | .ok es => M.productValue σ es = some x
  | .error e => e.IsRefusedPower bounds

theorem YieldsFactors.bind {result : Except Error (List Expr)}
    {next : List Expr → Except Error Expr} {x y : K} (h : YieldsFactors M σ bounds result x)
    (hnext : ∀ es, M.productValue σ es = some x → Yields M σ bounds (next es) y) :
    Yields M σ bounds (result >>= next) y := by
  cases result with
  | error e => exact h
  | ok es => exact hnext es h

theorem yieldsFactors_nil {α : Type} {f : α → Except Error Expr} :
    YieldsFactors M σ bounds ([].mapM f) 1 := by
  show M.productValue σ [] = some 1
  rw [productValue]

theorem Yields.cons {α : Type} {a : α} {as : List α} {f : α → Except Error Expr} {x y : K}
    (ha : Yields M σ bounds (f a) x) (has : YieldsFactors M σ bounds (as.mapM f) y) :
    YieldsFactors M σ bounds ((a :: as).mapM f) (x * y) := by
  rw [List.mapM_cons]
  cases hfa : f a with
  | error e => rw [hfa] at ha; exact ha
  | ok e =>
    rw [hfa] at ha
    cases hfas : as.mapM f with
    | error e => rw [hfas] at has; exact has
    | ok es =>
      rw [hfas] at has
      exact productValue_cons_eq_some.mpr ⟨x, y, ha, has, rfl⟩

/-! ## Opening products -/

mutual

theorem productValue_factors (e : Expr) : M.productValue σ e.factors = M.value σ e := by
  unfold Expr.factors
  split
  · next factors => rw [productValue_factorsList factors, value_mul]
  · cases h : M.value σ e <;> simp [productValue, h]

/-- Opening the products among some factors keeps the product of the values. -/
theorem productValue_factorsList (es : List Expr) :
    M.productValue σ (Expr.factorsList es) = M.productValue σ es := by
  match es with
  | [] => rw [Expr.factorsList]
  | e :: es =>
    rw [Expr.factorsList]
    ext x
    simp only [productValue_append_eq_some, productValue_cons_eq_some,
      productValue_factors e, productValue_factorsList es]

end

namespace PowerProduct

/-! ## Power products -/

variable (M σ)

/-- The product of the powers of a number with some exponents. -/
def exponentsValue (b : K) : List Expr → Option K
  | [] => some 1
  | e :: es => Option.map₂ (· * ·) ((M.value σ e).bind (M.pow b)) (exponentsValue b es)

/-- The product of the powers of some bases. -/
def powersValue : List (Expr × List Expr) → Option K
  | [] => some 1
  | (base, exponents) :: rest =>
    Option.map₂ (· * ·) ((M.value σ base).bind fun b => exponentsValue M σ b exponents)
      (powersValue rest)

/-- The value of a power product: the coefficient times the product of the powers. -/
def value (product : PowerProduct) : Option K :=
  (powersValue M σ product.powers).map fun p => product.coefficient * p

variable {M σ}

theorem exponentsValue_cons_eq_some {b : K} {e : Expr} {es : List Expr} {x : K} :
    exponentsValue M σ b (e :: es) = some x ↔
      ∃ u y z, M.value σ e = some u ∧ M.pow b u = some y ∧ exponentsValue M σ b es = some z ∧
        y * z = x := by
  simp only [exponentsValue, Option.map₂_eq_some_iff, Option.mem_def, Option.bind_eq_some_iff]
  constructor
  · rintro ⟨y, z, ⟨u, hu, hy⟩, hz, h⟩
    exact ⟨u, y, z, hu, hy, hz, h⟩
  · rintro ⟨u, y, z, hu, hy, hz, h⟩
    exact ⟨y, z, ⟨u, hu, hy⟩, hz, h⟩

theorem powersValue_cons_eq_some {base : Expr} {exponents : List Expr}
    {rest : List (Expr × List Expr)} {x : K} :
    powersValue M σ ((base, exponents) :: rest) = some x ↔
      ∃ b y z, M.value σ base = some b ∧ exponentsValue M σ b exponents = some y ∧
        powersValue M σ rest = some z ∧ y * z = x := by
  simp only [powersValue, Option.map₂_eq_some_iff, Option.mem_def, Option.bind_eq_some_iff]
  constructor
  · rintro ⟨y, z, ⟨b, hb, hy⟩, hz, h⟩
    exact ⟨b, y, z, hb, hy, hz, h⟩
  · rintro ⟨b, y, z, hb, hy, hz, h⟩
    exact ⟨y, z, ⟨b, hb, hy⟩, hz, h⟩

theorem value_eq_some {product : PowerProduct} {x : K} :
    product.value M σ = some x ↔
      ∃ p, powersValue M σ product.powers = some p ∧ product.coefficient * p = x := by
  simp [value, Option.map_eq_some_iff]

theorem exponentsValue_append {b : K} {es : List Expr} {e : Expr} {x u y : K}
    (hes : exponentsValue M σ b es = some x) (he : M.value σ e = some u)
    (hy : M.pow b u = some y) : exponentsValue M σ b (es ++ [e]) = some (x * y) := by
  induction es generalizing x with
  | nil =>
    obtain rfl : (1 : K) = x := by simpa [exponentsValue] using hes
    exact exponentsValue_cons_eq_some.mpr ⟨u, y, 1, he, hy, rfl, by ring⟩
  | cons a es ih =>
    obtain ⟨v, z, w, hv, hz, hw, rfl⟩ := exponentsValue_cons_eq_some.mp hes
    exact exponentsValue_cons_eq_some.mpr ⟨v, z, w * y, hv, hz, ih hw, by ring⟩

/-- Multiplying by a power multiplies by its value. -/
theorem powersValue_addPower {powers : List (Expr × List Expr)} {base exponent : Expr}
    {x b u y : K} (hpowers : powersValue M σ powers = some x) (hbase : M.value σ base = some b)
    (hexponent : M.value σ exponent = some u) (hy : M.pow b u = some y) :
    powersValue M σ (addPower base exponent powers) = some (x * y) := by
  induction powers generalizing x with
  | nil =>
    obtain rfl : (1 : K) = x := by simpa [powersValue] using hpowers
    refine powersValue_cons_eq_some.mpr ⟨b, y, 1, hbase, ?_, rfl, by ring⟩
    exact exponentsValue_cons_eq_some.mpr ⟨u, y, 1, hexponent, hy, rfl, mul_one y⟩
  | cons p rest ih =>
    obtain ⟨other, exponents⟩ := p
    obtain ⟨c, z, w, hc, hz, hw, rfl⟩ := powersValue_cons_eq_some.mp hpowers
    rw [addPower]
    split
    · next heq =>
      subst heq
      obtain rfl : c = b := Option.some.inj (hc.symm.trans hbase)
      exact powersValue_cons_eq_some.mpr
        ⟨c, z * y, w, hc, exponentsValue_append hz hexponent hy, hw, by ring⟩
    · exact powersValue_cons_eq_some.mpr ⟨c, z, w * y, hc, hz, ih hw, by ring⟩

/-- Multiplying by a factor multiplies by its value. -/
theorem value_addFactor {product : PowerProduct} {e : Expr} {x y : K}
    (hproduct : product.value M σ = some x) (he : M.value σ e = some y) :
    (product.addFactor e).value M σ = some (x * y) := by
  obtain ⟨p, hp, rfl⟩ := value_eq_some.mp hproduct
  unfold addFactor
  split
  · next c =>
    rw [value_constant, Option.some.injEq] at he
    exact value_eq_some.mpr ⟨p, hp, by rw [← he]; push_cast; ring⟩
  · next base exponent =>
    obtain ⟨b, u, hb, hu, hy⟩ := value_pow_eq_some.mp he
    exact value_eq_some.mpr ⟨p * y, powersValue_addPower hp hb hu hy, by ring⟩
  · have hy : M.pow y 1 = some y := by
      simpa using M.pow_int y 1 (.inr (by norm_num))
    exact value_eq_some.mpr ⟨p * y, powersValue_addPower hp he value_one hy, by ring⟩

theorem value_foldl_addFactor {product : PowerProduct} {es : List Expr} {x y : K}
    (hproduct : product.value M σ = some x) (hes : M.productValue σ es = some y) :
    (es.foldl addFactor product).value M σ = some (x * y) := by
  induction es generalizing product x y with
  | nil =>
    obtain rfl : (1 : K) = y := by simpa [productValue] using hes
    rw [List.foldl_nil, hproduct, mul_one]
  | cons e es ih =>
    obtain ⟨z, w, hz, hw, rfl⟩ := productValue_cons_eq_some.mp hes
    rw [List.foldl_cons, ih (value_addFactor hproduct hz) hw, mul_assoc]

/-- The power product of some factors has the product of their values. -/
theorem value_ofFactors {es : List Expr} {x : K} (h : M.productValue σ es = some x) :
    (ofFactors es).value M σ = some x := by
  have hone : one.value M σ = some 1 := value_eq_some.mpr ⟨1, rfl, by simp [one]⟩
  rw [ofFactors, value_foldl_addFactor hone ((productValue_factorsList es).trans h), one_mul]

/-- The product of powers of a number is its power with the sum of the exponents. -/
theorem exists_sumValue_of_exponentsValue {b : K} {es : List Expr} {x : K}
    (h : exponentsValue M σ b es = some x) :
    ∃ u, M.sumValue σ es = some u ∧ M.pow b u = some x := by
  induction es generalizing x with
  | nil =>
    obtain rfl : (1 : K) = x := by simpa [exponentsValue] using h
    exact ⟨0, by rw [sumValue], by simpa using M.pow_int b 0 (.inr le_rfl)⟩
  | cons e es ih =>
    obtain ⟨u, y, z, hu, hy, hz, rfl⟩ := exponentsValue_cons_eq_some.mp h
    obtain ⟨v, hv, hz⟩ := ih hz
    exact ⟨u + v, sumValue_cons_eq_some.mpr ⟨u, v, hu, hv, rfl⟩, M.pow_add b u v y z hy hz⟩

end PowerProduct

open PowerProduct

/-! ## The rule -/

theorem value_addExponents {es : List Expr} {u : K} (h : M.sumValue σ es = some u) :
    M.value σ (Canonical.addExponents es) = some u := by
  unfold Canonical.addExponents
  split
  · next e => rw [← value_sum, Expr.sum] at h; exact h
  · exact value_add_rule h

/-- The constants among some factors, and the others, have together the product of the
values. -/
theorem productValue_constantPart {es : List Expr} {x : K} (h : M.productValue σ es = some x) :
    ∃ y, M.productValue σ (es.filter fun e => e.constant?.isNone) = some y ∧
      x = Canonical.constantPart es * y := by
  rw [Canonical.constantPart_eq]
  induction es generalizing x with
  | nil =>
    refine ⟨x, h, ?_⟩
    rw [List.map_nil, List.prod_nil, Rat.cast_one, one_mul]
  | cons e es ih =>
    obtain ⟨z, w, hz, hw, rfl⟩ := productValue_cons_eq_some.mp h
    obtain ⟨y, hy, rfl⟩ := ih hw
    rw [List.map_cons, List.prod_cons, Rat.cast_mul]
    cases hconstant : e.constant? with
    | some d =>
      obtain rfl : e = .constant d := by
        cases e <;> simp_all [Expr.constant?]
      rw [value_constant, Option.some.injEq] at hz
      exact ⟨y, by simpa [Expr.constant?] using hy, by rw [← hz, Option.getD_some]; ring⟩
    | none =>
      refine ⟨z * y, ?_, by rw [Option.getD_none, Rat.cast_one]; ring⟩
      rw [List.filter_cons_of_pos (by rw [hconstant]; rfl)]
      exact productValue_cons_eq_some.mpr ⟨z, y, hz, hy, rfl⟩

theorem yieldsFactors_powers {power : Expr → Expr → Except Error Expr}
    (hpower : ∀ b e x, M.value σ (.pow b e) = some x → Yields M σ bounds (power b e) x)
    {powers : List (Expr × List Expr)} {x : K} (h : powersValue M σ powers = some x) :
    YieldsFactors M σ bounds
      (powers.mapM fun p => power p.1 (Canonical.addExponents p.2)) x := by
  induction powers generalizing x with
  | nil =>
    obtain rfl : (1 : K) = x := by simpa [powersValue] using h
    exact yieldsFactors_nil
  | cons p rest ih =>
    obtain ⟨b, y, z, hb, hy, hz, rfl⟩ := powersValue_cons_eq_some.mp h
    obtain ⟨u, hu, hpow⟩ := exists_sumValue_of_exponentsValue hy
    refine Yields.cons (hpower _ _ y ?_) (ih hz)
    exact value_pow_eq_some.mpr ⟨b, u, hb, value_addExponents hu, hpow⟩

/-- A coefficient and powers assembled have the product of their values. -/
theorem value_assemble {coefficient : Rat} {powers : List Expr} {x : K}
    (h : M.productValue σ powers = some x) :
    M.value σ (Canonical.assemble coefficient powers) = some (coefficient * x) := by
  unfold Canonical.assemble
  split
  · next hzero => rw [hzero, Rat.cast_zero, zero_mul, value_zero]
  · split
    · obtain rfl : (1 : K) = x := by simpa [productValue] using h
      rw [value_constant, mul_one]
    · next terms =>
      have hterms : M.sumValue σ terms = some x := by
        rw [← value_add, ← h, ← value_product, Expr.product]
      split
      · next hone => rw [hone, Rat.cast_one, one_mul, value_add, hterms]
      · refine LinearForm.value_toExpr ?_
        rw [LinearForm.value_gatherList _ _ terms LinearForm.value_zero hterms, zero_add]
    · rw [value_product, productValue_perm (Expr.sort_perm _)]
      split
      · next hone => rw [hone, Rat.cast_one, one_mul, h]
      · refine productValue_append_eq_some.mpr ⟨x, coefficient, h, ?_, mul_comm _ _⟩
        exact productValue_cons_eq_some.mpr
          ⟨coefficient, 1, value_constant _, by rw [productValue], mul_one _⟩

/-- The rule for products yields the product of the values, if the rule for powers yields the
powers. -/
theorem yields_multiplyWith {power : Expr → Expr → Except Error Expr}
    (hpower : ∀ b e x, M.value σ (.pow b e) = some x → Yields M σ bounds (power b e) x)
    {factors : List Expr} {x : K} (h : M.productValue σ factors = some x) :
    Yields M σ bounds (Canonical.multiplyWith power factors) x := by
  obtain ⟨p, hp, rfl⟩ := value_eq_some.mp (value_ofFactors h)
  unfold Canonical.multiplyWith
  dsimp only
  split
  · next hzero =>
    show M.value σ .zero = _
    rw [value_zero, hzero, Rat.cast_zero, zero_mul]
  · refine (yieldsFactors_powers hpower hp).bind fun es hes => ?_
    obtain ⟨y, hy, rfl⟩ := productValue_constantPart hes
    show M.value σ _ = _
    rw [value_assemble hy, Rat.cast_mul, mul_assoc]

end ClosedForm
