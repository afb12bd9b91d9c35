import ClosedForm.Expr.Traversal

/-!
# Folds with and without a table

`Expr.foldM` keeps the values of finished subexpressions in a table. For a step that may fail
and does nothing else, the table cannot be noticed: `foldM_eq` gives the fold of an expression
from the folds of its children, as if every occurrence were visited.
-/

namespace ClosedForm

namespace Expr

variable {ε α β : Type} (step : Expr → List α → Except ε α)

/-- The fold that follows the tree and keeps no table. -/
def foldTree (e : Expr) : Except ε α :=
  recurse (fun node values => values.mapM id >>= step node) e

theorem foldTree_eq (e : Expr) :
    foldTree step e = e.children.mapM (foldTree step) >>= step e := by
  unfold foldTree
  rw [recurse_eq, List.mapM_map]
  rfl

/-- The values in the table are those of the fold without one. -/
def Table.Correct (table : Table α) : Prop :=
  ∀ e value, table[e]? = some value → foldTree step e = .ok value

/-- From a correct table the visit gives the result, and a correct table again. -/
def Visits (visit : StateT (Table α) (Except ε) β) (result : Except ε β) : Prop :=
  ∀ table : Table α, table.Correct step →
    match result with
    | .ok value => ∃ after : Table α, visit.run table = .ok (value, after) ∧ after.Correct step
    | .error e => visit.run table = .error e

variable {step}

theorem Visits.pure (value : β) : Visits step (Pure.pure value) (.ok value) :=
  fun table h => ⟨table, rfl, h⟩

theorem Visits.bind {γ : Type} {visit : StateT (Table α) (Except ε) β} {result : Except ε β}
    {next : β → StateT (Table α) (Except ε) γ} {nextResult : β → Except ε γ}
    (h : Visits step visit result) (hnext : ∀ value, Visits step (next value) (nextResult value)) :
    Visits step (visit >>= next) (result >>= nextResult) := by
  intro table htable
  have hrun := h table htable
  cases result with
  | error e =>
    simp only [StateT.run_bind] at hrun ⊢
    rw [hrun]
    rfl
  | ok value =>
    obtain ⟨after, hafter, hcorrect⟩ := hrun
    have := hnext value after hcorrect
    simp only [StateT.run_bind, hafter]
    exact this

/-- A table stays correct when the value of an expression is entered. -/
theorem Table.Correct.insert {table : Table α} (h : table.Correct step) {e : Expr} {value : α}
    (hvalue : foldTree step e = .ok value) : Table.Correct step (table.insert e value) := by
  intro other v hv
  rw [Std.HashMap.getElem?_insert] at hv
  split at hv
  · next heq =>
    obtain rfl := eq_of_beq heq
    cases hv
    exact hvalue
  · exact h other v hv

/-- The visit of a node follows the visits of its children. -/
theorem Visits.node (e : Expr) {below : StateT (Table α) (Except ε) (List α)}
    (h : Visits step below (e.children.mapM (foldTree step))) :
    Visits step (visitNode step e below) (foldTree step e) := by
  intro table htable
  cases hfind : table[e]? with
  | some value =>
    have hvalue := htable e value hfind
    rw [hvalue]
    refine ⟨table, ?_, htable⟩
    simp only [visitNode, StateT.run_bind, StateT.run_get, pure_bind, hfind, StateT.run_pure]
    rfl
  | none =>
    have hrun := h table htable
    have hnode := foldTree_eq step e
    cases hchildren : e.children.mapM (foldTree step) with
    | error x =>
      simp only [hchildren] at hrun hnode
      rw [show foldTree step e = .error x from hnode]
      simp [visitNode, hfind, hrun]
      rfl
    | ok values =>
      simp only [hchildren] at hrun hnode
      obtain ⟨after, hafter, hcorrect⟩ := hrun
      have hvalue : foldTree step e = step e values := hnode
      cases hstep : step e values with
      | error x =>
        rw [hvalue, hstep]
        simp [visitNode, hfind, hafter]
        show (fun a => (a, after.insert e a)) <$> step e values = _
        rw [hstep]
        rfl
      | ok value =>
        rw [hvalue, hstep]
        refine ⟨after.insert e value, ?_, hcorrect.insert (hvalue.trans hstep)⟩
        simp [visitNode, hfind, hafter]
        show (fun a => (a, after.insert e a)) <$> step e values = _
        rw [hstep]
        rfl

theorem Visits.list {es : List Expr} (h : ∀ e ∈ es, Visits step (visit step e) (foldTree step e)) :
    Visits step (visitList step es) (es.mapM (foldTree step)) := by
  induction es with
  | nil => exact Visits.pure []
  | cons e es ih =>
    rw [List.mapM_cons]
    exact (h e (by simp)).bind fun value =>
      (ih fun x hx => h x (by simp [hx])).bind fun values => Visits.pure (value :: values)

theorem visits_visit (step : Expr → List α → Except ε α) (e : Expr) :
    Visits step (visit step e) (foldTree step e) := by
  induction e using Expr.induction with
  | node e ih =>
    rw [visit_eq]
    exact Visits.node e (Visits.list ih)

theorem foldM_eq_foldTree (e : Expr) : e.foldM step = foldTree step e := by
  have h := visits_visit step e ∅ (by intro x v hv; simp at hv)
  cases hfold : foldTree step e with
  | error x =>
    simp only [hfold] at h
    simp only [foldM, h]
    rfl
  | ok value =>
    simp only [hfold] at h
    obtain ⟨after, hafter, -⟩ := h
    simp only [foldM, hafter]
    rfl

/-- A fold that may only fail takes the values of the children from left to right and then
the step. -/
theorem foldM_eq (e : Expr) :
    e.foldM step = e.children.mapM (fun child => child.foldM step) >>= step e := by
  rw [foldM_eq_foldTree, foldTree_eq]
  simp only [foldM_eq_foldTree]

end Expr

end ClosedForm
