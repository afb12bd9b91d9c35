import ClosedForm.Proofs.Weight.Basic

/-!
# The rule for sums and weights

A form weighs what its expressions with coefficients weigh as terms, whatever the coefficients
are (`LinearForm.weight`). Collecting adds at most the weight of the collected terms, and the sum
that a form stands for weighs no more than the form (`termWeight_add_le`).
-/

namespace ClosedForm

open ClosedForm.Expr Canonical

variable (bounds : Bounds)

namespace LinearForm

/-- The weight of the expressions with coefficients, as terms. -/
def weight (bounds : Bounds) (form : LinearForm) : Nat :=
  (form.terms.map fun t => 1 + ClosedForm.weight bounds t.1).sum

theorem weight_addTerm (e : Expr) (c : Rat) (terms : List (Expr × Rat)) :
    ((addTerm e c terms).map fun t => 1 + ClosedForm.weight bounds t.1).sum ≤
      (terms.map fun t => 1 + ClosedForm.weight bounds t.1).sum +
        (1 + ClosedForm.weight bounds e) := by
  induction terms with
  | nil => simp [addTerm]
  | cons t rest ih =>
    rw [addTerm]
    split
    · simp only [List.map_cons, List.sum_cons]
      omega
    · simp only [List.map_cons, List.sum_cons] at ih ⊢
      omega

mutual

theorem weight_gather (scale : Rat) (form : LinearForm) (e : Expr) :
    (gather scale form e).weight bounds ≤ form.weight bounds + termWeight bounds e := by
  unfold gather
  split
  · exact Nat.le_add_right _ _
  · next terms =>
    rw [termWeight_add]
    exact weight_gatherList scale form terms
  · next c terms =>
    have h := weight_gatherList (scale * c) form terms
    rw [termWeight_mul_constant, weights_cons, weight_add]
    omega
  · next hconstant hadd _ =>
    have hsplit : 1 + ClosedForm.weight bounds e.splitCoefficient.2 = termWeight bounds e := by
      refine weight_splitCoefficient bounds (isConstant_eq_false_iff.mpr fun c => hconstant c) ?_
      cases e with
      | add ts => exact absurd rfl (hadd ts)
      | _ => rfl
    rw [← hsplit]
    exact weight_addTerm bounds e.splitCoefficient.2 _ form.terms

/-- Collecting adds at most the weight of the terms. -/
theorem weight_gatherList (scale : Rat) (form : LinearForm) (es : List Expr) :
    (gatherList scale form es).weight bounds ≤ form.weight bounds + termWeights bounds es := by
  match es with
  | [] => exact Nat.le_add_right _ _
  | e :: es =>
    have h := weight_gather scale form e
    have h' := weight_gatherList scale (gather scale form e) es
    rw [gatherList, termWeights_cons]
    omega

end

/-- The sum of a form weighs no more than the form. -/
theorem termWeight_toExpr (form : LinearForm) :
    termWeight bounds form.toExpr ≤ form.weight bounds := by
  unfold toExpr LinearForm.weight
  dsimp only
  rw [termWeight_sum, termWeights_perm bounds (sort_perm _), termWeights_append]
  have hconstants : termWeights bounds
      (if form.constant = 0 then [] else [Expr.constant form.constant]) = 0 := by
    split <;> simp
  rw [hconstants, Nat.zero_add]
  induction form.terms with
  | nil => simp
  | cons t rest ih =>
    by_cases ht : t.2 = 0
    · rw [List.filterMap_cons_none (by simp [ht]), List.map_cons, List.sum_cons]
      omega
    · have hscale := termWeight_scale bounds t.2 t.1
      rw [List.filterMap_cons_some (by rw [if_neg ht]), List.map_cons, List.sum_cons,
        termWeights_cons]
      omega

/-- Terms that are collected with a coefficient weigh no more than before. -/
theorem termWeight_gatherList (c : Rat) (es : List Expr) :
    termWeight bounds (gatherList c .zero es).toExpr ≤ termWeights bounds es := by
  have h := weight_gatherList bounds c .zero es
  have hzero : LinearForm.zero.weight bounds = 0 := rfl
  exact (termWeight_toExpr bounds _).trans (by omega)

end LinearForm

namespace Canonical

/-- A sum weighs no more than its terms. -/
theorem termWeight_add_le (ts : List Expr) : termWeight bounds (add ts) ≤ termWeights bounds ts :=
  LinearForm.termWeight_gatherList bounds 1 ts

theorem weight_add_le (ts : List Expr) : weight bounds (add ts) ≤ 1 + termWeights bounds ts := by
  have h := weight_le_termWeight bounds (add ts)
  have h' := termWeight_add_le bounds ts
  omega

end Canonical

end ClosedForm
