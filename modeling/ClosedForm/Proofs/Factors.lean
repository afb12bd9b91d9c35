import ClosedForm.Canonical.PowerProduct
import ClosedForm.Proofs.Results
import Mathlib.Algebra.BigOperators.Group.List.Basic
import Mathlib.Algebra.Field.Rat
import Mathlib.Data.List.Nodup

/-!
# Factors and their bases

Every factor of a product is a power of its base, to the exponent `1` if it is no power node
(`factorBase`, `factorExponent`). What a power product collects from some factors is described
by the bases of the opened factors (`exists_factor_of_mem_powers`), so the rule for products
depends on the rule for powers only at these bases (`multiplyWith_congr`).
-/

namespace ClosedForm

namespace Expr

/-! ## Constants -/

theorem eq_zero_of_isZero {e : Expr} (h : e.isZero = true) : e = .zero := by
  cases e <;> simp_all [isZero, zero]

theorem eq_one_of_isOne {e : Expr} (h : e.isOne = true) : e = .one := by
  cases e <;> simp_all [isOne, one]

/-- The expression is a constant. -/
def isConstant (e : Expr) : Bool :=
  e.constant?.isSome

@[simp] theorem isConstant_constant (c : Rat) : (constant c).isConstant = true := rfl

theorem isConstant_iff {e : Expr} : e.isConstant = true ↔ ∃ c, e = constant c := by
  cases e <;> simp [isConstant, constant?]

theorem constant?_eq_some {e : Expr} {c : Rat} : e.constant? = some c ↔ e = constant c := by
  cases e <;> simp [constant?]

theorem isConstant_eq_false_iff {e : Expr} : e.isConstant = false ↔ ∀ c, e ≠ constant c := by
  cases e <;> simp [isConstant, constant?]

/-- An expression that is no sum is its own single term. -/
theorem terms_of_not_isAdd {e : Expr} (h : e.isAdd = false) : e.terms = [e] := by
  cases e <;> first | rfl | cases h

/-! ## Opened factors -/

/-- The expression is a product. -/
def isMul : Expr → Bool
  | mul _ => true
  | _ => false

theorem factors_of_not_isMul {e : Expr} (h : e.isMul = false) : e.factors = [e] := by
  cases e <;> simp_all [isMul, factors]

@[simp] theorem factors_mul (fs : List Expr) : (mul fs).factors = factorsList fs := by
  rw [factors]

theorem mem_factorsList {f : Expr} {es : List Expr} :
    f ∈ factorsList es ↔ ∃ e ∈ es, f ∈ e.factors := by
  rw [factorsList_eq_flatMap, List.mem_flatMap]

theorem factorsList_append (es fs : List Expr) :
    factorsList (es ++ fs) = factorsList es ++ factorsList fs := by
  simp only [factorsList_eq_flatMap, List.flatMap_append]

/-- Opened factors are no products. -/
theorem isMul_of_mem_factors {f e : Expr} (h : f ∈ e.factors) : f.isMul = false := by
  induction e using Expr.induction with
  | node e ih =>
    cases e with
    | mul fs =>
      rw [factors_mul, mem_factorsList] at h
      obtain ⟨g, hg, hf⟩ := h
      exact ih g hg hf
    | _ =>
      rw [factors_of_not_isMul rfl, List.mem_singleton] at h
      rw [h]
      rfl

/-- A property that passes from a product to its factors passes from an expression to its opened
factors. -/
theorem holds_of_mem_factors {p : Expr → Prop} (hmul : ∀ fs, p (mul fs) → ∀ f ∈ fs, p f) {e f : Expr}
    (he : p e) (hf : f ∈ e.factors) : p f := by
  induction e using Expr.induction with
  | node e ih =>
    cases e with
    | mul fs =>
      rw [factors_mul, mem_factorsList] at hf
      obtain ⟨g, hg, hf⟩ := hf
      exact ih g hg (hmul fs he g hg) hf
    | _ =>
      rw [factors_of_not_isMul rfl, List.mem_singleton] at hf
      rwa [hf]

section Measures

variable {N : Type*} [AddCommMonoid N] {m : Expr → N} (hmul : ∀ fs, m (mul fs) = (fs.map m).sum)

include hmul

/-- What adds up over the factors of products adds up over the opened factors. -/
theorem sum_map_factors (e : Expr) : (e.factors.map m).sum = m e := by
  induction e using Expr.induction with
  | node e ih =>
    cases e with
    | mul fs =>
      rw [factors_mul, hmul]
      change ∀ f ∈ fs, _ at ih
      induction fs with
      | nil => rfl
      | cons f fs ihs =>
        rw [factorsList, List.map_append, List.sum_append, List.map_cons, List.sum_cons,
          ih f (by simp), ihs fun g hg => ih g (by simp [hg])]
    | _ => simp [factors]

/-- Opening products keeps the sum. -/
theorem sum_map_factorsList (es : List Expr) : ((factorsList es).map m).sum = (es.map m).sum := by
  rw [← factors_mul, sum_map_factors hmul, hmul]

end Measures

/-- Factors that are no products are open already. -/
theorem factorsList_of_not_isMul {es : List Expr} (h : ∀ e ∈ es, e.isMul = false) :
    factorsList es = es := by
  induction es with
  | nil => rw [factorsList]
  | cons e es ih =>
    rw [factorsList, factors_of_not_isMul (h e (by simp)), ih fun f hf => h f (by simp [hf]),
      List.singleton_append]

/-- The factors of a built product are those of its parts. -/
theorem factors_product (es : List Expr) (h : es ≠ []) :
    (product es).factors = factorsList es := by
  match es, h with
  | [e], _ => simp [product, factorsList]
  | _ :: _ :: _, _ => simp [product]

/-- The base of a factor. -/
def factorBase : Expr → Expr
  | pow base _ => base
  | e => e

/-- The exponent of a factor. -/
def factorExponent : Expr → Expr
  | pow _ exponent => exponent
  | _ => one

end Expr

namespace PowerProduct

open ClosedForm.Expr

/-! ## Collecting -/

theorem addFactor_constant (product : PowerProduct) (c : Rat) :
    product.addFactor (.constant c) = ⟨product.coefficient * c, product.powers⟩ := rfl

theorem addFactor_of_not_isConstant (product : PowerProduct) {f : Expr}
    (h : f.isConstant = false) :
    product.addFactor f = ⟨product.coefficient,
      addPower (factorBase f) (factorExponent f) product.powers⟩ := by
  cases f <;> simp_all [addFactor, isConstant, constant?, factorBase, factorExponent]

theorem keys_addPower (base exponent : Expr) (powers : List (Expr × List Expr)) :
    (addPower base exponent powers).map Prod.fst = powers.map Prod.fst ∨
      base ∉ powers.map Prod.fst ∧
        (addPower base exponent powers).map Prod.fst = powers.map Prod.fst ++ [base] := by
  induction powers with
  | nil => exact .inr ⟨by simp, rfl⟩
  | cons p rest ih =>
    rw [addPower]
    by_cases h : p.1 = base
    · rw [if_pos h]
      exact .inl rfl
    · rw [if_neg h]
      rcases ih with heq | ⟨hnot, heq⟩
      · exact .inl (by simp [heq])
      · exact .inr ⟨by simp [hnot, Ne.symm h], by simp [heq]⟩

/-- What a power product collects: bases are distinct, every base has exponents, and these are
the exponents of factors with the base. -/
structure Collected (fs : List Expr) (powers : List (Expr × List Expr)) : Prop where
  nodup : (powers.map Prod.fst).Nodup
  ne_nil : ∀ p ∈ powers, p.2 ≠ []
  exists_factor : ∀ p ∈ powers, ∀ e ∈ p.2, ∃ f ∈ fs, f.isConstant = false ∧
    factorBase f = p.1 ∧ factorExponent f = e

theorem Collected.addPower {fs : List Expr} {powers : List (Expr × List Expr)}
    (h : Collected fs powers) {f : Expr} (hf : f ∈ fs) (hconstant : f.isConstant = false) :
    Collected fs (addPower (factorBase f) (factorExponent f) powers) where
  nodup := by
    rcases keys_addPower (factorBase f) (factorExponent f) powers with heq | ⟨hnot, heq⟩
    · rw [heq]
      exact h.nodup
    · rw [heq]
      exact h.nodup.append (List.nodup_singleton _) (by simpa using hnot)
  ne_nil := by
    have hne := h.ne_nil
    clear h
    induction powers with
    | nil => simp [PowerProduct.addPower]
    | cons p rest ih =>
      rw [PowerProduct.addPower]
      intro q hq
      split at hq
      · rcases List.mem_cons.mp hq with rfl | hq
        · simp
        · exact hne q (by simp [hq])
      · rcases List.mem_cons.mp hq with rfl | hq
        · exact hne _ (by simp)
        · exact ih (fun r hr => hne r (by simp [hr])) q hq
  exists_factor := by
    have hfactor := h.exists_factor
    clear h
    induction powers with
    | nil =>
      intro p hp e he
      rw [PowerProduct.addPower, List.mem_singleton] at hp
      rw [hp, List.mem_singleton] at he
      exact ⟨f, hf, hconstant, by rw [hp], he.symm⟩
    | cons p rest ih =>
      rw [PowerProduct.addPower]
      intro q hq e he
      split at hq
      · next heq =>
        rcases List.mem_cons.mp hq with rfl | hq
        · rcases List.mem_append.mp he with he | he
          · exact hfactor p (by simp) e he
          · exact ⟨f, hf, hconstant, heq.symm, (List.mem_singleton.mp he).symm⟩
        · exact hfactor q (by simp [hq]) e he
      · rcases List.mem_cons.mp hq with rfl | hq
        · exact hfactor _ (by simp) e he
        · exact ih (fun r hr => hfactor r (by simp [hr])) q hq e he

theorem collected_foldl {all fs : List Expr} {product : PowerProduct}
    (h : Collected all product.powers) (hfs : ∀ f ∈ fs, f ∈ all) :
    Collected all (fs.foldl addFactor product).powers := by
  induction fs generalizing product with
  | nil => exact h
  | cons f fs ih =>
    rw [List.foldl_cons]
    refine ih ?_ fun g hg => hfs g (by simp [hg])
    cases hf : f.isConstant with
    | true =>
      obtain ⟨c, rfl⟩ := isConstant_iff.mp hf
      exact h
    | false =>
      rw [addFactor_of_not_isConstant product hf]
      exact h.addPower (hfs f (by simp)) hf

theorem collected_ofFactors (fs : List Expr) :
    Collected (factorsList fs) (ofFactors fs).powers :=
  collected_foldl ⟨by simp [one], by simp [one], by simp [one]⟩ fun _ h => h

/-- The bases that a power product has are those of the factors it was made of. -/
theorem exists_factor_of_mem_powers {fs : List Expr} {p : Expr × List Expr}
    (h : p ∈ (ofFactors fs).powers) :
    ∃ f ∈ factorsList fs, f.isConstant = false ∧ p.1 = factorBase f := by
  have hcollected := collected_ofFactors fs
  obtain ⟨e, he⟩ := List.exists_mem_of_ne_nil _ (hcollected.ne_nil p h)
  obtain ⟨f, hf, hconstant, hbase, -⟩ := hcollected.exists_factor p h e he
  exact ⟨f, hf, hconstant, hbase.symm⟩

end PowerProduct

namespace Canonical

open ClosedForm.Expr PowerProduct

theorem constantPart_eq (es : List Expr) :
    constantPart es = (es.map fun e => e.constant?.getD 1).prod := by
  rw [constantPart, List.prod_eq_foldl, List.foldl_map]
  congr 1
  funext c e
  cases e <;> simp [constant?]

/-- How the rule for products succeeds: a coefficient of zero ends it, and otherwise the powers
are assembled. -/
theorem multiplyWith_eq_ok {P : Expr → Expr → Except Error Expr} {fs : List Expr} {r : Expr} :
    multiplyWith P fs = .ok r ↔
      ((ofFactors fs).coefficient = 0 ∧ r = .zero) ∨
      ((ofFactors fs).coefficient ≠ 0 ∧ ∃ ps,
        List.Forall₂ (fun p q => P p.1 (addExponents p.2) = .ok q) (ofFactors fs).powers ps ∧
        r = assemble ((ofFactors fs).coefficient * constantPart ps)
          (ps.filter fun e => e.constant?.isNone)) := by
  unfold multiplyWith
  dsimp only
  by_cases hzero : (ofFactors fs).coefficient = 0
  · rw [if_pos hzero]
    simp only [hzero, true_and, ne_eq, not_true_eq_false, false_and, or_false]
    exact ⟨fun h => by cases h; rfl, fun h => by rw [h]; rfl⟩
  · rw [if_neg hzero, bind_eq_ok]
    simp only [hzero, false_and, ne_eq, not_false_eq_true, true_and, false_or, mapM_eq_ok]
    refine exists_congr fun ps => and_congr_right fun _ => ?_
    exact ⟨fun h => by cases h; rfl, fun h => by rw [h]; rfl⟩

/-- The rule for products asks the rule for powers about the bases of the factors only. -/
theorem multiplyWith_congr {P Q : Expr → Expr → Except Error Expr} {fs : List Expr}
    (h : ∀ f ∈ factorsList fs, f.isConstant = false → ∀ e, P (factorBase f) e = Q (factorBase f) e) :
    multiplyWith P fs = multiplyWith Q fs := by
  have hpowers : ((ofFactors fs).powers.mapM fun p => P p.1 (addExponents p.2)) =
      (ofFactors fs).powers.mapM fun p => Q p.1 (addExponents p.2) := by
    refine mapM_congr fun p hp => ?_
    obtain ⟨f, hf, hconstant, hbase⟩ := exists_factor_of_mem_powers hp
    rw [hbase]
    exact h f hf hconstant _
  simp only [multiplyWith, hpowers]

end Canonical

end ClosedForm
