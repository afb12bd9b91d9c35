import ClosedForm.Proofs.Weight.Sums

/-!
# The rule for products and weights

A power product weighs what its powers weigh one by one, before their exponents are collected
(`PowerProduct.weight`), which is at most the weight of the factors it was made of. If the rule
for powers makes of each base no more than that, a product weighs no more than its factors, and
as a term no more than its factors that are no constants (`weight_multiplyWith`).
-/

namespace ClosedForm

open ClosedForm.Expr Canonical

variable (bounds : Bounds)

/-- The factors that are no constants. -/
def nonconstants (fs : List Expr) : List Expr :=
  fs.filter fun f => !f.isConstant

/-- The factors that are constants. -/
def constants (fs : List Expr) : List Expr :=
  fs.filter isConstant

theorem nonconstants_eq_filter (fs : List Expr) :
    (fs.filter fun e => e.constant?.isNone) = nonconstants fs := by
  refine List.filter_congr fun e _ => ?_
  cases h : e.constant? <;> simp [isConstant, h]

theorem weights_split (fs : List Expr) :
    weights bounds (constants fs) + weights bounds (nonconstants fs) = weights bounds fs := by
  have hperm : (constants fs ++ nonconstants fs).Perm fs := List.filter_append_perm isConstant fs
  rw [← weights_append, weights_perm bounds hperm]

theorem weights_nonconstants_le (fs : List Expr) :
    weights bounds (nonconstants fs) ≤ weights bounds fs := by
  have := weights_split bounds fs
  omega

theorem weight_pow_integer {base : Expr} {n : Rat} (hn : Rational.isInteger n = true) :
    weight bounds (.pow base (.constant n)) = 2 * weight bounds base := by
  rw [weight]
  unfold powerWeight
  dsimp only
  rw [if_pos hn]

/-! ## Opened factors -/

theorem weights_factors (e : Expr) : weights bounds e.factors = weight bounds e := by
  rw [weights_eq_sum]
  exact sum_map_factors (fun fs => (weight_mul bounds fs).trans (weights_eq_sum bounds fs)) e

theorem weights_factorsList (fs : List Expr) :
    weights bounds (factorsList fs) = weights bounds fs := by
  rw [← factors_mul, weights_factors, weight_mul]

theorem weights_nonconstants_factorsList (fs : List Expr) :
    weights bounds (nonconstants (factorsList fs)) ≤ weights bounds (nonconstants fs) := by
  induction fs with
  | nil => exact Nat.le_refl _
  | cons f fs ih =>
    have happend : nonconstants (factorsList (f :: fs)) =
        nonconstants f.factors ++ nonconstants (factorsList fs) := by
      rw [factorsList]
      exact List.filter_append _ _
    rw [happend, weights_append]
    cases hf : f.isConstant with
    | true =>
      obtain ⟨c, rfl⟩ := isConstant_iff.mp hf
      have hnil : nonconstants (Expr.constant c).factors = [] := by
        rw [factors_of_not_isMul rfl]
        rfl
      have hcons : nonconstants (Expr.constant c :: fs) = nonconstants fs := rfl
      rw [hnil, hcons, weights_nil, Nat.zero_add]
      exact ih
    | false =>
      have hcons : nonconstants (f :: fs) = f :: nonconstants fs := by
        simp [nonconstants, hf]
      have hle := weights_nonconstants_le bounds f.factors
      rw [weights_factors] at hle
      rw [hcons, weights_cons]
      omega

/-! ## Collecting -/

/-- The weight of a factor with a base and an exponent, where the exponent `1` is not
written. -/
def factorWeight (base exponent : Expr) : Nat :=
  if exponent = .one then weight bounds base else weight bounds (.pow base exponent)

/-- The weight of the factors with one base. -/
def exponentsWeight (base : Expr) (exponents : List Expr) : Nat :=
  (exponents.map (factorWeight bounds base)).sum

namespace PowerProduct

/-- The weight of the powers, before their exponents are collected. -/
def weight (product : PowerProduct) : Nat :=
  (product.powers.map fun p => exponentsWeight bounds p.1 p.2).sum

theorem factorWeight_le (f : Expr) :
    factorWeight bounds (factorBase f) (factorExponent f) ≤ ClosedForm.weight bounds f := by
  unfold factorWeight
  split
  · next hone =>
    cases f with
    | pow base exponent =>
      have hexponent : exponent = .constant 1 := hone
      rw [hexponent, weight_pow_integer bounds rfl]
      show ClosedForm.weight bounds base ≤ _
      omega
    | _ => exact Nat.le_refl _
  · next hone =>
    cases f with
    | pow base exponent => exact Nat.le_refl _
    | _ => exact absurd rfl hone

theorem weight_addPower (base exponent : Expr) (powers : List (Expr × List Expr)) :
    ((addPower base exponent powers).map fun p => exponentsWeight bounds p.1 p.2).sum =
      (powers.map fun p => exponentsWeight bounds p.1 p.2).sum +
        factorWeight bounds base exponent := by
  induction powers with
  | nil => simp [addPower, exponentsWeight]
  | cons p rest ih =>
    rw [addPower]
    split
    · next heq =>
      simp only [List.map_cons, List.sum_cons, exponentsWeight, List.map_append, List.map_nil,
        List.sum_append, List.sum_nil, heq]
      omega
    · simp only [List.map_cons, List.sum_cons] at ih ⊢
      omega

/-- Collecting adds at most the weight of the factors that are no constants to the powers, and
that of the constants to the coefficient. -/
theorem weight_foldl_addFactor (fs : List Expr) (product : PowerProduct) :
    (fs.foldl addFactor product).weight bounds ≤
        product.weight bounds + weights bounds (nonconstants fs) ∧
      ClosedForm.weight bounds (.constant (fs.foldl addFactor product).coefficient) ≤
        ClosedForm.weight bounds (.constant product.coefficient) +
          weights bounds (constants fs) := by
  induction fs generalizing product with
  | nil => exact ⟨Nat.le_add_right _ _, Nat.le_add_right _ _⟩
  | cons f fs ih =>
    rw [List.foldl_cons]
    obtain ⟨hpowers, hcoefficient⟩ := ih (product.addFactor f)
    cases hf : f.isConstant with
    | true =>
      obtain ⟨c, rfl⟩ := isConstant_iff.mp hf
      have hnon : nonconstants (Expr.constant c :: fs) = nonconstants fs := rfl
      have hcon : constants (Expr.constant c :: fs) = .constant c :: constants fs := rfl
      have hmul := weight_constant_mul bounds product.coefficient c
      have hsame : (product.addFactor (.constant c)).weight bounds = product.weight bounds := rfl
      rw [addFactor_constant] at hpowers hcoefficient hsame ⊢
      dsimp only at hcoefficient
      rw [hnon, hcon, weights_cons]
      constructor <;> omega
    | false =>
      have hnon : nonconstants (f :: fs) = f :: nonconstants fs := by
        simp [nonconstants, hf]
      have hcon : constants (f :: fs) = constants fs := by
        simp [constants, hf]
      have hmore : (product.addFactor f).weight bounds ≤
          product.weight bounds + ClosedForm.weight bounds f := by
        have hle := factorWeight_le bounds f
        have heq := weight_addPower bounds (factorBase f) (factorExponent f) product.powers
        rw [addFactor_of_not_isConstant product hf]
        unfold weight
        dsimp only
        omega
      have hsame : (product.addFactor f).coefficient = product.coefficient := by
        rw [addFactor_of_not_isConstant product hf]
      rw [hsame] at hcoefficient
      rw [hnon, hcon, weights_cons]
      constructor <;> omega

/-- The powers weigh no more than the factors that are no constants. -/
theorem weight_ofFactors (fs : List Expr) :
    (ofFactors fs).weight bounds ≤ weights bounds (nonconstants fs) := by
  have h := (weight_foldl_addFactor bounds (factorsList fs) one).1
  have hzero : one.weight bounds = 0 := rfl
  have hle := weights_nonconstants_factorsList bounds fs
  unfold ofFactors
  omega

/-- The powers and the coefficient together weigh no more than the factors. -/
theorem weight_ofFactors_total (fs : List Expr) :
    ClosedForm.weight bounds (.constant (ofFactors fs).coefficient) +
      (ofFactors fs).weight bounds ≤ weights bounds fs := by
  obtain ⟨hpowers, hcoefficient⟩ := weight_foldl_addFactor bounds (factorsList fs) one
  have hzero : one.weight bounds = 0 := rfl
  have hone : ClosedForm.weight bounds (.constant one.coefficient) = 0 := by
    simp [one, ClosedForm.weight]
  have hsplit := weights_split bounds (factorsList fs)
  rw [weights_factorsList] at hsplit
  unfold ofFactors
  omega

end PowerProduct

namespace Canonical

/-! ## Assembling -/

theorem weight_assemble (c : Rat) (ps : List Expr) :
    weight bounds (assemble c ps) ≤ weight bounds (.constant c) + weights bounds ps := by
  unfold assemble
  split
  · next hc =>
    rw [hc]
    exact Nat.le_add_right _ _
  · split
    · exact Nat.le_add_right _ _
    · next ts =>
      split
      · simp
      · have hterm := LinearForm.termWeight_gatherList bounds c ts
        have hle := weight_le_termWeight bounds (LinearForm.gatherList c .zero ts).toExpr
        rw [weights_cons, weight_add, weights_nil]
        omega
    · rw [weight_product, weights_perm bounds (sort_perm _)]
      split
      · exact Nat.le_add_left _ _
      · rw [weights_append, weights_cons, weights_nil]
        omega

/-- As a term a product weighs one more than its factors without the coefficient. -/
theorem termWeight_assemble (c : Rat) {ps : List Expr} (h : ∀ p ∈ ps, p.isConstant = false) :
    termWeight bounds (assemble c ps) ≤ 1 + weights bounds ps := by
  unfold assemble
  split
  · simp [Expr.zero]
  · split
    · simp
    · next ts =>
      split
      · rw [termWeight_add, weights_cons, weight_add]
        omega
      · have hterm := LinearForm.termWeight_gatherList bounds c ts
        rw [weights_cons, weight_add, weights_nil]
        omega
    · split
      · have hle := termWeight_le_weight bounds (Expr.product (Expr.sort ps))
        rw [weight_product, weights_perm bounds (sort_perm ps)] at hle
        exact hle
      · have hsort : Expr.sort (ps ++ [.constant c]) = .constant c :: Expr.sort ps := by
          refine sort_eq_of_perm ?_ (List.pairwise_cons.mpr ⟨fun p hp => ?_, ascending_sort ps⟩)
          · exact (List.perm_append_singleton _ _).trans ((sort_perm ps).symm.cons _)
          · exact constant_le (h p (mem_sort.mp hp))
        have hle := termWeight_product_constant bounds c (Expr.sort ps)
        rw [weights_perm bounds (sort_perm ps)] at hle
        rw [hsort]
        exact hle

theorem weight_constantPart (ps : List Expr) :
    weight bounds (.constant (constantPart ps)) ≤ weights bounds (constants ps) := by
  rw [constantPart_eq]
  induction ps with
  | nil => simp [weight]
  | cons p ps ih =>
    rw [List.map_cons, List.prod_cons]
    cases p with
    | constant d =>
      have hcons : constants (Expr.constant d :: ps) = .constant d :: constants ps := rfl
      have hmul := weight_constant_mul bounds d (ps.map fun e => e.constant?.getD 1).prod
      rw [hcons, weights_cons]
      exact hmul.trans (Nat.add_le_add_left ih _)
    | _ =>
      simp only [constant?, Option.getD_none, one_mul]
      exact ih

/-! ## Multiplying -/

theorem weights_le_of_forall₂ {α : Type} {g : α → Nat} {as : List α} {ps : List Expr}
    (h : List.Forall₂ (fun a p => weight bounds p ≤ g a) as ps) :
    weights bounds ps ≤ (as.map g).sum := by
  rw [weights_eq_sum]
  exact (sum_le_of_forall₂ h).1

/-- If all expressions together weigh as much as their bounds, each of them does. -/
theorem forall₂_eq_of_weights {α : Type} {g : α → Nat} {as : List α} {ps : List Expr}
    (h : List.Forall₂ (fun a p => weight bounds p ≤ g a) as ps)
    (heq : (as.map g).sum ≤ weights bounds ps) :
    List.Forall₂ (fun a p => weight bounds p = g a) as ps := by
  rw [weights_eq_sum] at heq
  exact (forall₂_and h ((sum_le_of_forall₂ h).2 heq)).imp fun _ _ hboth =>
    Nat.le_antisymm hboth.1 hboth.2

variable {P : Expr → Expr → Except Error Expr} {fs : List Expr} {r : Expr}

/-- How much a product weighs, by the powers it is assembled of. -/
theorem weight_of_powers {ps : List Expr}
    (hr : r = assemble ((PowerProduct.ofFactors fs).coefficient * constantPart ps)
      (ps.filter fun e => e.constant?.isNone)) :
    weight bounds r ≤ weight bounds (.constant (PowerProduct.ofFactors fs).coefficient) +
        weights bounds ps ∧
      termWeight bounds r ≤ 1 + weights bounds ps := by
  have hsplit := weights_split bounds ps
  have hpart := weight_constantPart bounds ps
  rw [nonconstants_eq_filter] at hr
  subst hr
  constructor
  · have h := weight_assemble bounds
      ((PowerProduct.ofFactors fs).coefficient * constantPart ps) (nonconstants ps)
    have hmul := weight_constant_mul bounds (PowerProduct.ofFactors fs).coefficient
      (constantPart ps)
    omega
  · have hnot : ∀ p ∈ nonconstants ps, p.isConstant = false := by
      intro p hp
      simpa [nonconstants] using (List.mem_filter.mp hp).2
    have h := termWeight_assemble bounds
      ((PowerProduct.ofFactors fs).coefficient * constantPart ps) hnot
    omega

/-- A product weighs no more than its factors if no power weighs more than what it was collected
from. As a term it counts no coefficients. -/
theorem weight_multiplyWith
    (hP : ∀ p ∈ (PowerProduct.ofFactors fs).powers, ∀ q, P p.1 (addExponents p.2) = .ok q →
      weight bounds q ≤ exponentsWeight bounds p.1 p.2)
    (h : multiplyWith P fs = .ok r) :
    weight bounds r ≤ weights bounds fs ∧
      termWeight bounds r ≤ 1 + weights bounds (nonconstants fs) := by
  have htotal := PowerProduct.weight_ofFactors_total bounds fs
  have hpowers := PowerProduct.weight_ofFactors bounds fs
  rcases multiplyWith_eq_ok.mp h with ⟨hzero, rfl⟩ | ⟨-, ps, hps, hr⟩
  · rw [hzero] at htotal
    refine ⟨?_, by simp [Expr.zero]⟩
    show weight bounds (.constant 0) ≤ _
    omega
  · have hle := weights_le_of_forall₂ bounds
      (forall₂_imp_of_mem hps fun p hp q hq => hP p hp q hq)
    have hboth := weight_of_powers bounds hr
    unfold PowerProduct.weight at htotal hpowers
    constructor <;> omega

end Canonical

end ClosedForm
