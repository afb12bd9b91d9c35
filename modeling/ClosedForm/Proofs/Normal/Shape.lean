import ClosedForm.Canonical.Rules
import ClosedForm.Proofs.Nesting

/-!
# Normal expressions

`Canonical.Normal` describes the expressions that no rule changes, by their shape. A sum has at
least two terms that are no sums, in ascending order, and no two of them differ in their
coefficient only. A product is a coefficient in front of factors (`withFactor`) that are neither
constants nor products, in ascending order and with distinct bases (`FactorShape`). A power is
one that no rule rewrites, and a function one without a special value or a sign to pull out.

A normal expression that is neither a constant nor a sum is a term: a coefficient that is not
zero in front of factors (`Normal.exists_term`).
-/

namespace ClosedForm

open ClosedForm.Expr

/-- The factors with a coefficient in front; `1` is not written. -/
def withFactor (c : Rat) (gs : List Expr) : List Expr :=
  if c = 1 then gs else .constant c :: gs

@[simp] theorem withFactor_one (gs : List Expr) : withFactor 1 gs = gs :=
  if_pos rfl

theorem withFactor_of_ne {c : Rat} (hc : c ≠ 1) (gs : List Expr) :
    withFactor c gs = .constant c :: gs :=
  if_neg hc

theorem mem_withFactor {c : Rat} {gs : List Expr} {f : Expr} (h : f ∈ withFactor c gs) :
    f = .constant c ∨ f ∈ gs := by
  unfold withFactor at h
  split at h
  · exact .inr h
  · exact List.mem_cons.mp h

theorem mem_withFactor_of_mem {gs : List Expr} {g : Expr} (h : g ∈ gs) (c : Rat) :
    g ∈ withFactor c gs := by
  unfold withFactor
  split
  · exact h
  · exact List.mem_cons_of_mem _ h

namespace Canonical

variable {bounds : Bounds}

/-! ## Shapes of nodes -/

/-- The factors of a term, without its coefficient. -/
structure FactorShape (gs : List Expr) : Prop where
  ne_nil : gs ≠ []
  not_constant : ∀ g ∈ gs, g.isConstant = false
  not_mul : ∀ g ∈ gs, g.isMul = false
  ascending : Ascending gs
  bases : (gs.map factorBase).Nodup
  /-- A coefficient in front of a single sum is distributed. -/
  not_sum : ∀ ts, gs ≠ [.add ts]

/-- The terms of a sum. -/
structure SumShape (ts : List Expr) : Prop where
  two_le : 2 ≤ ts.length
  not_add : ∀ t ∈ ts, t.isAdd = false
  not_zero : .zero ∉ ts
  ascending : Ascending ts
  distinct : (ts.map fun t => t.splitCoefficient.2).Nodup

/-- A power that is left as it is. -/
inductive PowerShape (bounds : Bounds) : Expr → Expr → Prop
  | inert {base exponent : Expr} (h : Inert base exponent) : PowerShape bounds base exponent
  | kept {b q : Rat} (hb : b ≠ 1) (hzero : q ≠ 0) (hone : q ≠ 1) (h : Kept bounds b q) :
    PowerShape bounds (.constant b) (.constant q)

/-- A function of one argument that is left as it is. -/
structure CallShape (f : Func) (argument : Expr) : Prop where
  not_unit : f ≠ .imaginaryUnit
  no_value : specialValue? f argument = none
  no_sign : f = .sin ∨ f = .cos ∨ f = .tan → 0 ≤ argument.splitCoefficient.1

/-- The expressions that no rule changes. -/
inductive Normal (bounds : Bounds) : Expr → Prop
  | constant (c : Rat) : Normal bounds (.constant c)
  | symbol (name : String) : Normal bounds (.symbol name)
  | add {ts : List Expr} (hts : ∀ t ∈ ts, Normal bounds t) (h : SumShape ts) :
    Normal bounds (.add ts)
  | mul {c : Rat} {gs : List Expr} (hc : c ≠ 0) (hgs : ∀ g ∈ gs, Normal bounds g)
    (h : FactorShape gs) (hlength : 2 ≤ (withFactor c gs).length) :
    Normal bounds (.mul (withFactor c gs))
  | pow {base exponent : Expr} (hbase : Normal bounds base) (hexponent : Normal bounds exponent)
    (h : PowerShape bounds base exponent) : Normal bounds (.pow base exponent)
  | imaginaryUnit : Normal bounds .imaginaryUnit
  | call {f : Func} {argument : Expr} (hargument : Normal bounds argument)
    (h : CallShape f argument) : Normal bounds (.call f argument)

theorem Normal.of_mem_children {c e : Expr} (h : Normal bounds e) (hc : c ∈ e.children) :
    Normal bounds c := by
  cases h with
  | constant => cases hc
  | symbol => cases hc
  | add hts => exact hts c hc
  | mul _ hgs =>
    rcases mem_withFactor hc with rfl | hc
    · exact .constant _
    · exact hgs c hc
  | pow hbase hexponent =>
    simp only [children, List.mem_cons, List.not_mem_nil, or_false] at hc
    rcases hc with rfl | rfl
    · exact hbase
    · exact hexponent
  | imaginaryUnit => cases hc
  | call hargument =>
    simp only [Expr.call, children, List.mem_cons, List.not_mem_nil, or_false] at hc
    rw [hc]
    exact hargument

theorem Normal.exponent_ne_zero {base exponent : Expr} (h : Normal bounds (.pow base exponent)) :
    exponent ≠ .zero := by
  cases h with
  | pow _ _ hshape =>
    cases hshape with
    | inert hinert => exact hinert.exponent_ne_zero
    | kept _ hzero _ _ => simpa [Expr.zero] using hzero

theorem Normal.exists_withFactor {fs : List Expr} (h : Normal bounds (.mul fs)) :
    ∃ c gs, fs = withFactor c gs ∧ c ≠ 0 ∧ FactorShape gs := by
  generalize he : Expr.mul fs = e at h
  cases h with
  | mul hc _ hshape =>
    cases he
    exact ⟨_, _, rfl, hc, hshape⟩
  | _ => cases he

/-- The factors of a term are no products. -/
theorem FactorShape.isMul_of_mem_withFactor {c : Rat} {gs : List Expr} (h : FactorShape gs) {f : Expr}
    (hf : f ∈ withFactor c gs) : f.isMul = false := by
  rcases mem_withFactor hf with rfl | hg
  · rfl
  · exact h.not_mul f hg

/-- The factors of a normal product are no products. -/
theorem Normal.isMul_of_mem_mul {fs : List Expr} (h : Normal bounds (.mul fs)) {f : Expr}
    (hf : f ∈ fs) : f.isMul = false := by
  obtain ⟨c, gs, rfl, -, hshape⟩ := h.exists_withFactor
  exact hshape.isMul_of_mem_withFactor hf

/-- The terms of a normal expression are normal, and no sums. -/
theorem Normal.of_mem_terms {e t : Expr} (h : Normal bounds e) (ht : t ∈ e.terms) :
    Normal bounds t ∧ t.isAdd = false := by
  cases hadd : e.isAdd with
  | true =>
    cases h with
    | add hts hshape => exact ⟨hts t ht, hshape.not_add t ht⟩
    | _ => cases hadd
  | false =>
    rw [terms_of_not_isAdd hadd, List.mem_singleton] at ht
    rw [ht]
    exact ⟨h, hadd⟩

/-! ## Terms -/

theorem FactorShape.isConstant_product {gs : List Expr} (h : FactorShape gs) :
    (Expr.product gs).isConstant = false := by
  match gs, h with
  | [], h => exact absurd rfl h.ne_nil
  | [g], h => exact h.not_constant g (by simp)
  | _ :: _ :: _, _ => rfl

theorem FactorShape.isAdd_product {gs : List Expr} (h : FactorShape gs) :
    (Expr.product gs).isAdd = false := by
  match gs, h with
  | [], h => exact absurd rfl h.ne_nil
  | [g], h =>
    cases g with
    | add ts => exact absurd rfl (h.not_sum ts)
    | _ => rfl
  | _ :: _ :: _, _ => rfl

/-- A coefficient in front of factors is a product node. -/
theorem FactorShape.product_withFactor_of_ne {c : Rat} {gs : List Expr} (h : FactorShape gs)
    (hc : c ≠ 1) : Expr.product (withFactor c gs) = .mul (.constant c :: gs) := by
  rw [withFactor_of_ne hc]
  match gs, h with
  | [], h => exact absurd rfl h.ne_nil
  | _ :: _, _ => rfl

theorem FactorShape.isConstant_term {c : Rat} {gs : List Expr} (h : FactorShape gs) :
    (Expr.product (withFactor c gs)).isConstant = false := by
  by_cases hc : c = 1
  · rw [hc, withFactor_one]
    exact h.isConstant_product
  · rw [h.product_withFactor_of_ne hc]
    rfl

theorem FactorShape.isAdd_term {c : Rat} {gs : List Expr} (h : FactorShape gs) :
    (Expr.product (withFactor c gs)).isAdd = false := by
  by_cases hc : c = 1
  · rw [hc, withFactor_one]
    exact h.isAdd_product
  · rw [h.product_withFactor_of_ne hc]
    rfl

theorem splitCoefficient_of_not_isMul {e : Expr} (hconstant : e.isConstant = false)
    (hmul : e.isMul = false) : e.splitCoefficient = (1, e) := by
  cases e with
  | constant c => cases hconstant
  | mul fs => cases hmul
  | _ => rfl

/-- A term splits into its coefficient and the product of its factors. -/
theorem FactorShape.splitCoefficient_term {c : Rat} {gs : List Expr} (h : FactorShape gs) :
    (Expr.product (withFactor c gs)).splitCoefficient = (c, Expr.product gs) := by
  by_cases hc : c = 1
  · rw [hc, withFactor_one]
    match gs, h with
    | [], h => exact absurd rfl h.ne_nil
    | [g], h =>
      exact splitCoefficient_of_not_isMul (h.not_constant g (by simp)) (h.not_mul g (by simp))
    | f :: g :: fs, h =>
      have hf := h.not_constant f (by simp)
      cases f <;> first | rfl | cases hf
  · rw [h.product_withFactor_of_ne hc]
    rfl

/-- A coefficient in front of the product of the factors gives the term. -/
theorem FactorShape.scale_product {c : Rat} {gs : List Expr} (h : FactorShape gs) :
    (Expr.product gs).scale c = Expr.product (withFactor c gs) := by
  unfold Expr.scale
  by_cases hc : c = 1
  · rw [if_pos hc, hc, withFactor_one]
  · rw [if_neg hc, withFactor_of_ne hc]
    match gs, h with
    | [], h => exact absurd rfl h.ne_nil
    | [g], h =>
      have hg := h.not_mul g (by simp)
      cases g <;> first | rfl | cases hg
    | _ :: _ :: _, _ => rfl

/-- A coefficient that is not zero in front of normal factors is normal. -/
theorem FactorShape.normal_term {c : Rat} {gs : List Expr} (h : FactorShape gs) (hc : c ≠ 0)
    (hgs : ∀ g ∈ gs, Normal bounds g) : Normal bounds (Expr.product (withFactor c gs)) := by
  by_cases hlength : 2 ≤ (withFactor c gs).length
  · have hproduct : Expr.product (withFactor c gs) = .mul (withFactor c gs) := by
      match hfs : withFactor c gs with
      | [] => simp [hfs] at hlength
      | [_] => simp [hfs] at hlength
      | _ :: _ :: _ => rfl
    rw [hproduct]
    exact .mul hc hgs h hlength
  · have hpos := List.length_pos_of_ne_nil h.ne_nil
    by_cases hone : c = 1
    · rw [hone, withFactor_one] at hlength ⊢
      obtain ⟨g, rfl⟩ := List.length_eq_one_iff.mp (show gs.length = 1 by omega)
      exact hgs g (by simp)
    · rw [withFactor_of_ne hone, List.length_cons] at hlength
      omega

theorem factorShape_singleton {g : Expr} (hconstant : g.isConstant = false)
    (hmul : g.isMul = false) (hadd : g.isAdd = false) : FactorShape [g] where
  ne_nil := by simp
  not_constant := by simpa using hconstant
  not_mul := by simpa using hmul
  ascending := List.pairwise_singleton _ _
  bases := List.nodup_singleton _
  not_sum ts h := by
    rw [List.singleton_inj.mp h] at hadd
    cases hadd

/-- A normal expression that is neither a constant nor a sum is a coefficient in front of
factors. -/
theorem Normal.exists_term {t : Expr} (h : Normal bounds t) (hconstant : t.isConstant = false)
    (hadd : t.isAdd = false) :
    ∃ c gs, c ≠ 0 ∧ FactorShape gs ∧ (∀ g ∈ gs, Normal bounds g) ∧
      t = Expr.product (withFactor c gs) := by
  have hsingle (hmul : t.isMul = false) :
      ∃ c gs, c ≠ 0 ∧ FactorShape gs ∧ (∀ g ∈ gs, Normal bounds g) ∧
        t = Expr.product (withFactor c gs) :=
    ⟨1, [t], one_ne_zero, factorShape_singleton hconstant hmul hadd, by simpa using h,
      by rw [withFactor_one]; rfl⟩
  cases h with
  | @mul c gs hc hgs hshape hlength =>
    refine ⟨c, gs, hc, hshape, hgs, ?_⟩
    match hfs : withFactor c gs with
    | [] => simp [hfs] at hlength
    | [_] => simp [hfs] at hlength
    | _ :: _ :: _ => rfl
  | constant => cases hconstant
  | add => cases hadd
  | _ => exact hsingle rfl

end Canonical

end ClosedForm
