import ClosedForm.Proofs.Solve.Elimination
import Mathlib.LinearAlgebra.Matrix.Determinant.Basic

/-!
# Elimination and the determinant

The coefficients of `n` equations are a matrix with `n` columns (`LinearEquation.matrix`). Exchanging
two equations changes the sign of its determinant, dividing an equation divides it, and clearing an
unknown leaves it. So the determinant of the equations given is always the one followed along times
that of the equations in hand (`Elimination.Balanced`).

In the end the equations in hand have the identity matrix where all of them are solved, and otherwise
one of them has no coefficients (`Elimination.det_eq`).
-/

namespace ClosedForm

open LinearEquation

/-- The coefficients of the first `n` equations at the first `n` columns. -/
def LinearEquation.matrix (n : Nat) (rows : List LinearEquation) : Matrix (Fin n) (Fin n) ℚ :=
  .of fun i j => (rows.getD i default).coefficientAt j

namespace LinearEquation

variable {n : Nat} {front middle back : List LinearEquation} {x y unit : LinearEquation}

theorem matrix_apply (n : Nat) (rows : List LinearEquation) (i j : Fin n) :
    matrix n rows i j = (rows.getD i default).coefficientAt j := rfl

/-- Exchanging two equations changes the sign. -/
theorem det_exchange (hlength : (front ++ x :: middle ++ y :: back).length = n) :
    (matrix n (front ++ y :: middle ++ x :: back)).det =
      -(matrix n (front ++ x :: middle ++ y :: back)).det := by
  simp only [List.length_append, List.length_cons] at hlength
  have hi : front.length < n := by omega
  have hj : front.length + 1 + middle.length < n := by omega
  have hne : (⟨front.length, hi⟩ : Fin n) ≠ ⟨front.length + 1 + middle.length, hj⟩ := by
    simp [Fin.ext_iff]
    omega
  have hexchange : matrix n (front ++ y :: middle ++ x :: back) =
      (matrix n (front ++ x :: middle ++ y :: back)).submatrix
        (Equiv.swap ⟨front.length, hi⟩ ⟨front.length + 1 + middle.length, hj⟩) id := by
    ext a b
    simp only [matrix_apply, Matrix.submatrix_apply, id]
    congr 1
    grind [Fin.ext_iff]
  rw [hexchange, Matrix.det_permute, Equiv.Perm.sign_swap hne]
  simp

/-- A factor of one equation is a factor of the determinant. -/
theorem det_scale (hlength : front.length < n) {c : ℚ}
    (hx : ∀ j, x.coefficientAt j = c * unit.coefficientAt j) :
    (matrix n (front ++ x :: back)).det = c * (matrix n (front ++ unit :: back)).det := by
  have hrow : matrix n (front ++ x :: back) = (matrix n (front ++ unit :: back)).updateRow
      ⟨front.length, hlength⟩ (c • matrix n (front ++ unit :: back) ⟨front.length, hlength⟩) := by
    ext i j
    by_cases hi : i = ⟨front.length, hlength⟩
    · subst hi
      simp [matrix_apply, hx]
    · have hsame : (front ++ x :: back).getD i default = (front ++ unit :: back).getD i default := by
        grind [Fin.ext_iff]
      rw [Matrix.updateRow_ne hi, matrix_apply, matrix_apply, hsame]
  rw [hrow, Matrix.det_updateRow_smul, Matrix.updateRow_eq_self]

/-- Clearing an unknown from the other equations leaves the determinant. -/
theorem det_clear (hlength : (front ++ unit :: back).length = n) (column : Nat)
    (hsized : ∀ e ∈ front ++ back, e.coefficients.length = unit.coefficients.length) :
    (matrix n (front.map (unit.clear column) ++ unit :: back.map (unit.clear column))).det =
      (matrix n (front ++ unit :: back)).det := by
  simp only [List.length_append, List.length_cons] at hlength
  have hpivot : front.length < n := by omega
  let multiple (i : Fin n) : ℚ :=
    if i = ⟨front.length, hpivot⟩ then 0
    else -((front ++ unit :: back).getD i default).coefficientAt column
  refine Matrix.det_eq_of_forall_row_eq_smul_add_const multiple ⟨front.length, hpivot⟩
    (if_pos rfl) fun i j => ?_
  have hunit : (front ++ unit :: back).getD front.length default = unit := by simp
  simp only [matrix_apply, multiple, hunit]
  by_cases hi : i = ⟨front.length, hpivot⟩
  · subst hi
    simp
  · have hcleared : (front.map (unit.clear column) ++ unit :: back.map (unit.clear column)).getD i
        default = unit.clear column ((front ++ unit :: back).getD i default) := by
      grind [Fin.ext_iff]
    have hmem : (front ++ unit :: back).getD i default ∈ front ++ back := by
      grind [Fin.ext_iff]
    rw [if_neg hi, hcleared, clear, coefficientAt_subtract (hsized _ hmem)]
    ring

end LinearEquation

namespace Elimination

variable {n columns : Nat} {original : List LinearEquation} {state : Elimination}

/-- The equation that is taken out comes first, or it is exchanged with the first one. -/
theorem takeOut_cases {position : Nat} {equations others : List LinearEquation}
    {pivot : LinearEquation} (h : takeOut position equations = some (pivot, others)) :
    position = 0 ∧ equations = pivot :: others ∨
      position ≠ 0 ∧ ∃ first middle back, equations = first :: middle ++ pivot :: back ∧
        others = middle ++ first :: back := by
  match equations, position with
  | [], _ => cases h
  | first :: rest, 0 =>
    cases h
    exact .inl ⟨rfl, rfl⟩
  | first :: rest, k + 1 =>
    obtain ⟨other, hother, heq⟩ := Option.map_eq_some_iff.mp h
    cases heq
    obtain ⟨hk, rfl⟩ := List.getElem?_eq_some_iff.mp hother
    refine .inr ⟨Nat.succ_ne_zero k, first, rest.take k, rest.drop (k + 1), ?_, ?_⟩
    · rw [List.cons_append, List.cons_getElem_drop_succ, List.take_append_drop]
    · exact List.set_eq_take_cons_drop first hk

/-- The determinant of the equations given is the one followed along times that of the equations in
hand. -/
structure Balanced (n : Nat) (original : List LinearEquation) (state : Elimination) : Prop where
  length : state.equations.length = n
  ne_zero : state.determinant ≠ 0
  det : (matrix n original).det = state.determinant * (matrix n state.equations).det

theorem det_takeOut {position : Nat} {solved equations others : List LinearEquation}
    {pivot : LinearEquation} (h : takeOut position equations = some (pivot, others))
    (hlength : (solved ++ equations).length = n) :
    (matrix n (solved ++ equations)).det =
      (if position = 0 then 1 else -1) * (matrix n (solved ++ pivot :: others)).det := by
  rcases takeOut_cases h with ⟨hzero, rfl⟩ | ⟨hne, first, middle, back, rfl, rfl⟩
  · rw [if_pos hzero, one_mul]
  · have hassoc (e f : LinearEquation) : solved ++ e :: (middle ++ f :: back) =
        solved ++ e :: middle ++ f :: back := by simp
    rw [List.cons_append, hassoc] at hlength
    rw [if_neg hne, List.cons_append, hassoc, hassoc, det_exchange hlength]
    ring

theorem Balanced.step (h : Balanced n original state) (column : Nat)
    (hsized : ∀ e ∈ state.equations, e.coefficients.length = columns) :
    Balanced n original (state.step column) := by
  rcases step_cases state column with ⟨-, heq⟩ | ⟨position, pivot, others, hne, htake, heq⟩
  · rwa [heq]
  have hperm : state.equations.Perm (state.solved.map Prod.snd ++ pivot :: others) :=
    (takeOut_eq_some htake).2.append_left _
  have hlength := hperm.length_eq.symm.trans h.length
  have hfront : (state.solved.map Prod.snd).length < n := by
    rw [← hlength, List.length_append, List.length_cons]
    omega
  have hsized' : ∀ e ∈ state.solved.map Prod.snd ++ others, e.coefficients.length =
      (pivot.divide (pivot.coefficientAt column)).coefficients.length := by
    have hall : ∀ e ∈ state.solved.map Prod.snd ++ pivot :: others, e.coefficients.length = columns :=
      fun e he => hsized e (hperm.mem_iff.mpr he)
    intro e he
    rw [length_divide, hall pivot (by simp), hall e]
    exact List.Sublist.subset (by simp) he
  have hunit (j : Nat) : pivot.coefficientAt j =
      pivot.coefficientAt column * (pivot.divide (pivot.coefficientAt column)).coefficientAt j := by
    rw [coefficientAt_divide, mul_div_cancel₀ _ hne]
  rw [heq]
  refine ⟨?_, ?_, ?_⟩
  · rw [equations_pivotOn, ← hlength]
    simp
  · have hzero := h.ne_zero
    rw [determinant_pivotOn]
    split <;> simpa [hzero] using hne
  · calc
      (matrix n original).det = state.determinant * (matrix n state.equations).det := h.det
      _ = state.determinant * ((if position = 0 then 1 else -1) *
          (matrix n (state.solved.map Prod.snd ++ pivot :: others)).det) := by
        rw [equations, det_takeOut htake h.length]
      _ = _ := by
        rw [equations_pivotOn, determinant_pivotOn, det_clear (by simpa using hlength) column hsized',
          det_scale hfront hunit]
        split <;> ring

/-- After all columns have been processed. -/
theorem balanced_run (hsized : ∀ e ∈ original, e.coefficients.length = columns) :
    Balanced original.length original (run columns original) := by
  have hsteps : ∀ k, Balanced original.length original
      ((List.range k).foldl Elimination.step ⟨[], original, 1⟩) := by
    intro k
    induction k with
    | zero => exact ⟨by simp [equations], one_ne_zero, by simp [equations]⟩
    | succ k ih =>
      rw [List.range_succ, List.foldl_append]
      exact ih.step k (progress_steps hsized k).sized
  exact hsteps columns

/-! ## The equations in the end -/

/-- As many pivots as columns are all columns in order. -/
theorem Progress.pivots_eq (h : Progress n original n state) (hrank : state.rank = n) :
    state.pivots = List.range n := by
  have hlength : state.pivots.length = n := by rwa [pivots, List.length_map]
  have hsubset : state.pivots ⊆ List.range n := fun c hc => List.mem_range.mpr (h.pivots_lt c hc)
  have hperm : state.pivots.Perm (List.range n) :=
    (h.pivots_nodup.subperm hsubset).perm_of_length_le (by simp [hlength])
  exact hperm.eq_of_pairwise (fun a b _ _ hab hba => absurd hab hba.not_gt) h.pivots_ascending
    List.pairwise_lt_range

/-- Where all equations are solved, their coefficients are the identity matrix. -/
theorem Progress.matrix_eq_one (h : Progress n original n state) (hrank : state.rank = n) :
    matrix n state.equations = 1 := by
  have hpivots := h.pivots_eq hrank
  ext i j
  obtain ⟨s, hs⟩ : ∃ s, state.solved[i.val]? = some s :=
    ⟨_, List.getElem?_eq_getElem (hrank ▸ i.2)⟩
  have hmem := List.mem_of_getElem? hs
  have hpivot : s.1 = i := by
    have hentry : state.pivots[i.val]? = some s.1 := by rw [pivots, List.getElem?_map, hs]; rfl
    rw [hpivots, List.getElem?_range i.2] at hentry
    exact (Option.some.inj hentry).symm
  have hrow : state.equations.getD i default = s.2 := by
    rw [equations, List.getD_eq_getElem?_getD, List.getElem?_append_left (by simpa using hrank ▸ i.2),
      List.getElem?_map, hs]
    rfl
  rw [matrix_apply, hrow, Matrix.one_apply]
  split
  · next heq => rw [← heq, ← hpivot, h.pivot_one s hmem]
  · next hne =>
    refine h.pivot_zero s hmem j ?_ ?_
    · rw [hpivots]
      simp
    · rw [hpivot]
      exact fun heq => hne (Fin.ext heq.symm)

/-- Where equations are left over, these have no coefficients. -/
theorem Progress.det_eq_zero (h : Progress n original n state) (hlength : state.equations.length = n)
    (hrank : state.rank < n) : (matrix n state.equations).det = 0 := by
  refine Matrix.det_eq_zero_of_row_eq_zero ⟨state.rank, hrank⟩ fun j => ?_
  rw [equations, List.length_append, List.length_map] at hlength
  have hleft : 0 < state.unsolved.length := by
    have : state.rank = state.solved.length := rfl
    omega
  have hrow : state.equations.getD state.rank default = state.unsolved[0] := by
    simp [equations, rank, hleft]
  rw [matrix_apply, hrow]
  exact h.unsolved_zero _ (List.getElem_mem hleft) j j.2

/-- The determinant of as many equations as columns. -/
theorem det_eq (hsized : ∀ e ∈ original, e.coefficients.length = original.length) {state : Elimination}
    (hstate : state = run original.length original) :
    (matrix original.length original).det =
      if state.rank < original.length then 0 else state.determinant := by
  subst hstate
  have hprogress := progress_run hsized
  have hbalanced := balanced_run hsized
  rw [hbalanced.det]
  split
  · next hrank => rw [hprogress.det_eq_zero hbalanced.length hrank, mul_zero]
  · next hrank =>
    have hle := hprogress.rank_add_length
    rw [hprogress.matrix_eq_one (by omega), Matrix.det_one, mul_one]

/-- The determinant is zero exactly if equations are left over. -/
theorem det_ne_zero_iff (hsized : ∀ e ∈ original, e.coefficients.length = original.length) :
    (matrix original.length original).det ≠ 0 ↔
      (run original.length original).rank = original.length := by
  have hle := (progress_run hsized).rank_add_length
  rw [det_eq hsized rfl]
  split
  · next hrank => simpa using hrank.ne
  · simpa [(balanced_run hsized).ne_zero] using (by omega)

end Elimination

end ClosedForm
