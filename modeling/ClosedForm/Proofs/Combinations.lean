import ClosedForm.Proofs.Normal.Sums
import Mathlib.Algebra.Module.Basic
import Mathlib.Tactic.Module

/-!
# Linear combinations

A linear form has a coefficient for each of its expressions. With values for these expressions, and one
for the constant part, the form comes to a `LinearForm.combination` of the values, and so does every
expression when it is collected (`Expr.combination`).

Collecting is linear in the values, whatever they are (`LinearForm.combination_gatherList`). Where all
terms are normal a sum has the combination of the form that it is made of (`LinearForm.Normal.combination_toExpr`),
so that the combination of a sum is the sum of the combinations (`Canonical.combination_add`).
-/

namespace ClosedForm

open ClosedForm.Expr Canonical

variable {M : Type*} [AddCommGroup M] [Module Rat M] (unit : M) (value : Expr → M) {bounds : Bounds}

/-- The value of the constant part and those of the expressions, by their coefficients. -/
def LinearForm.combination (form : LinearForm) : M :=
  form.constant • unit + (form.terms.map fun t => t.2 • value t.1).sum

/-- What an expression comes to when it is collected. -/
def Expr.combination (e : Expr) : M :=
  (LinearForm.gather 1 .zero e).combination unit value

namespace LinearForm

theorem combination_zero : zero.combination unit value = 0 := by
  simp [combination, zero]

theorem sum_addTerm (e : Expr) (c : Rat) (terms : List (Expr × Rat)) :
    ((addTerm e c terms).map fun t => t.2 • value t.1).sum =
      (terms.map fun t => t.2 • value t.1).sum + c • value e := by
  induction terms with
  | nil => simp [addTerm]
  | cons t terms ih =>
    rw [addTerm]
    split
    · next heq =>
      subst heq
      simp only [List.map_cons, List.sum_cons]
      module
    · rw [List.map_cons, List.sum_cons, ih, List.map_cons, List.sum_cons, add_assoc]

mutual

/-- Collecting an expression adds a multiple of what the expression comes to. -/
theorem combination_gather (scale : Rat) (form : LinearForm) (e : Expr) :
    (gather scale form e).combination unit value =
      form.combination unit value + scale • e.combination unit value := by
  unfold Expr.combination gather
  split
  · simp only [combination, zero, List.map_nil, List.sum_nil]
    module
  · next terms =>
    rw [combination_gatherList scale form terms, combination_gatherList 1 zero terms,
      combination_zero]
    module
  · next c terms =>
    rw [combination_gatherList (scale * c) form terms, combination_gatherList (1 * c) zero terms,
      combination_zero]
    module
  · simp only [combination, sum_addTerm, zero, List.map_nil, List.sum_nil]
    module

theorem combination_gatherList (scale : Rat) (form : LinearForm) (es : List Expr) :
    (gatherList scale form es).combination unit value =
      form.combination unit value + scale • (es.map (Expr.combination unit value)).sum := by
  match es with
  | [] => simp [gatherList]
  | e :: es =>
    rw [gatherList, combination_gatherList, combination_gather, List.map_cons, List.sum_cons]
    module

end

end LinearForm

namespace Expr

theorem combination_constant (c : Rat) : (constant c).combination unit value = c • unit := by
  simp [combination, LinearForm.gather, LinearForm.combination, LinearForm.zero]

theorem combination_sum (ts : List Expr) :
    (Expr.sum ts).combination unit value = (ts.map (combination unit value)).sum := by
  match ts with
  | [] => exact (combination_constant unit value 0).trans (zero_smul _ _)
  | [t] => simp [Expr.sum]
  | s :: t :: ts =>
    show (LinearForm.gatherList 1 .zero (s :: t :: ts)).combination unit value = _
    rw [LinearForm.combination_gatherList, LinearForm.combination_zero, zero_add, one_smul]

end Expr

/-- A term comes to its coefficient times the value of the product of its factors. -/
theorem Canonical.FactorShape.combination_term {c : Rat} {gs : List Expr} (h : FactorShape gs) :
    (Expr.product (withFactor c gs)).combination unit value = c • value (Expr.product gs) := by
  unfold Expr.combination
  rw [LinearForm.gather_term h]
  simp [LinearForm.combination, LinearForm.addTerm, LinearForm.zero]

namespace LinearForm

/-- A sum comes to what its terms come to. -/
theorem combination_toExpr (form : LinearForm) : form.toExpr.combination unit value =
    form.constant • unit + (form.terms.map fun t =>
      if t.2 = 0 then 0 else (t.1.scale t.2).combination unit value).sum := by
  have hterms : ((form.terms.filterMap fun t => if t.2 = 0 then none else some (Expr.scale t.2 t.1)).map
      (Expr.combination unit value)).sum = (form.terms.map fun t =>
        if t.2 = 0 then 0 else (t.1.scale t.2).combination unit value).sum := by
    induction form.terms with
    | nil => rfl
    | cons t terms ih => by_cases ht : t.2 = 0 <;> simpa [ht] using ih
  have hconstant : ((if form.constant = 0 then [] else [Expr.constant form.constant]).map
      (Expr.combination unit value)).sum = form.constant • unit := by
    split
    · next hzero => simp [hzero]
    · simp [combination_constant]
  rw [toExpr_eq, combination_sum, ((sort_perm form.parts).map _).sum_eq, parts, List.map_append,
    List.sum_append, hconstant, hterms]

/-- The sum of a normal form comes to what the form comes to. -/
theorem Normal.combination_toExpr {form : LinearForm} (h : form.Normal bounds) :
    form.toExpr.combination unit value = form.combination unit value := by
  rw [LinearForm.combination_toExpr, combination]
  congr 2
  refine List.map_congr_left fun t ht => ?_
  obtain ⟨gs, hshape, -, hrest⟩ := h.rests t ht
  split
  · next hzero => rw [hzero, zero_smul]
  · rw [hrest, hshape.scale_product, hshape.combination_term]

end LinearForm

/-- A sum of normal expressions comes to what they come to together. -/
theorem Canonical.combination_add {ts : List Expr} (h : ∀ t ∈ ts, Canonical.Normal bounds t) :
    (Canonical.add ts).combination unit value = (ts.map (Expr.combination unit value)).sum := by
  rw [Canonical.add, (LinearForm.normal_zero.gatherList 1 ts h).combination_toExpr,
    LinearForm.combination_gatherList, LinearForm.combination_zero, zero_add, one_smul]

end ClosedForm
