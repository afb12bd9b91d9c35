import ClosedForm.Solve.Elimination
import Mathlib.Algebra.BigOperators.Field
import Mathlib.Algebra.BigOperators.Fin
import Mathlib.Algebra.Order.Field.Rat
import Mathlib.Data.List.GetD
import Mathlib.Data.List.Perm.Basic
import Mathlib.Tactic.FieldSimp
import Mathlib.Tactic.LinearCombination
import Mathlib.Tactic.Ring

/-!
# What elimination does to the solutions

`Elimination.Progress` is what holds after some columns have been processed: the equations still have
the same solutions, a solved equation has the coefficient `1` at its pivot and `0` at the other
pivots, and the unsolved equations have `0` at all columns processed. One step keeps it
(`Progress.step`), so it holds after all columns (`progress_run`).

An unsolved equation is then a contradiction or says nothing, and a solved one gives its unknown in
terms of the free ones (`Progress.holds_iff`).
-/

namespace ClosedForm

open Finset

namespace LinearEquation

/-- The equation holds for values of the unknowns of the columns. -/
def Holds (columns : Nat) (v : Nat → Rat) (equation : LinearEquation) : Prop :=
  ∑ j ∈ range columns, equation.coefficientAt j * v j = equation.value

theorem coefficientAt_of_length_le {equation : LinearEquation} {j : Nat}
    (h : equation.coefficients.length ≤ j) : equation.coefficientAt j = 0 :=
  List.getD_eq_default _ _ h

theorem coefficientAt_divide (equation : LinearEquation) (c : Rat) (j : Nat) :
    (equation.divide c).coefficientAt j = equation.coefficientAt j / c := by
  have h := List.getD_map equation.coefficients 0 (n := j) fun x => x / c
  rwa [zero_div] at h

theorem coefficientAt_subtract {equation other : LinearEquation}
    (h : equation.coefficients.length = other.coefficients.length) (c : Rat) (j : Nat) :
    (equation.subtract c other).coefficientAt j =
      equation.coefficientAt j - c * other.coefficientAt j := by
  by_cases hj : j < equation.coefficients.length
  · have hother : j < other.coefficients.length := h ▸ hj
    simp [coefficientAt, subtract, List.getD_eq_getElem?_getD, hj, hother]
  · rw [not_lt] at hj
    have hother : other.coefficients.length ≤ j := h ▸ hj
    rw [coefficientAt_of_length_le hj, coefficientAt_of_length_le hother,
      coefficientAt_of_length_le (by simp [subtract, hj])]
    ring

theorem length_divide (equation : LinearEquation) (c : Rat) :
    (equation.divide c).coefficients.length = equation.coefficients.length := by
  simp [divide]

theorem length_subtract {equation other : LinearEquation}
    (h : equation.coefficients.length = other.coefficients.length) (c : Rat) :
    (equation.subtract c other).coefficients.length = other.coefficients.length := by
  simp [subtract, h]

variable {columns : Nat} {v : Nat → Rat}

/-- Dividing both sides keeps the solutions. -/
theorem holds_divide {equation : LinearEquation} {c : Rat} (hc : c ≠ 0) :
    (equation.divide c).Holds columns v ↔ equation.Holds columns v := by
  have hsum : ∑ j ∈ range columns, (equation.divide c).coefficientAt j * v j =
      (∑ j ∈ range columns, equation.coefficientAt j * v j) / c := by
    rw [sum_div]
    refine sum_congr rfl fun j _ => ?_
    rw [coefficientAt_divide]
    ring
  unfold Holds
  rw [hsum]
  exact div_left_inj' hc

/-- Subtracting a multiple of an equation that holds keeps the solutions. -/
theorem holds_subtract {equation other : LinearEquation}
    (h : equation.coefficients.length = other.coefficients.length) (c : Rat)
    (hother : other.Holds columns v) :
    (equation.subtract c other).Holds columns v ↔ equation.Holds columns v := by
  have hsum : ∑ j ∈ range columns, (equation.subtract c other).coefficientAt j * v j =
      (∑ j ∈ range columns, equation.coefficientAt j * v j) - c * other.value := by
    rw [← hother, mul_sum, ← sum_sub_distrib]
    refine sum_congr rfl fun j _ => ?_
    rw [coefficientAt_subtract h]
    ring
  unfold Holds
  rw [hsum]
  exact sub_left_inj

section Clear

variable {unit equation : LinearEquation} {column : Nat}

/-- Removing an unknown leaves the coefficients where the equation used has none. -/
theorem coefficientAt_clear_of_zero
    (h : equation.coefficients.length = unit.coefficients.length) {j : Nat}
    (hj : unit.coefficientAt j = 0) :
    (unit.clear column equation).coefficientAt j = equation.coefficientAt j := by
  rw [clear, coefficientAt_subtract h, hj, mul_zero, sub_zero]

theorem coefficientAt_clear_self (h : equation.coefficients.length = unit.coefficients.length)
    (hunit : unit.coefficientAt column = 1) : (unit.clear column equation).coefficientAt column = 0 := by
  rw [clear, coefficientAt_subtract h, hunit, mul_one, sub_self]

end Clear

/-- An equation without unknowns is a contradiction or says nothing. -/
theorem holds_iff_of_zero {equation : LinearEquation}
    (hlength : equation.coefficients.length = columns)
    (hzero : ∀ j < columns, equation.coefficientAt j = 0) :
    equation.Holds columns v ↔ equation.isContradiction = false := by
  have hall : equation.coefficients.all (· == 0) = true := by
    rw [List.all_eq_true]
    intro c hc
    obtain ⟨j, hj, rfl⟩ := List.getElem_of_mem hc
    have := hzero j (hlength ▸ hj)
    simpa [coefficientAt, hj] using this
  have hsum : ∑ j ∈ range columns, equation.coefficientAt j * v j = 0 :=
    sum_eq_zero fun j hj => by rw [hzero j (mem_range.mp hj), zero_mul]
  unfold Holds isContradiction
  rw [hsum, hall, Bool.true_and, bne_eq_false_iff_eq]
  exact eq_comm

end LinearEquation

namespace Elimination

open LinearEquation

/-! ## Choosing a pivot -/

theorem foldl_larger (numbers : List Rat) (start : Nat) (best : Option Nat × Rat) :
    (∀ x ∈ numbers, x.abs ≤ ((numbers.zipIdx start).foldl larger best).2) ∧
      best.2 ≤ ((numbers.zipIdx start).foldl larger best).2 ∧
      ((numbers.zipIdx start).foldl larger best = best ∨
        ∃ i x, numbers[i]? = some x ∧ best.2 < x.abs ∧
          (numbers.zipIdx start).foldl larger best = (some (start + i), x.abs)) := by
  induction numbers generalizing start best with
  | nil => simp
  | cons x numbers ih =>
    rw [List.zipIdx_cons, List.foldl_cons]
    obtain ⟨hall, hle, hlast⟩ := ih (start + 1) (larger best (x, start))
    have hstep : best.2 ≤ (larger best (x, start)).2 ∧ x.abs ≤ (larger best (x, start)).2 := by
      unfold larger
      split
      · next h => exact ⟨h.le, le_rfl⟩
      · next h => exact ⟨le_rfl, not_lt.mp h⟩
    refine ⟨List.forall_mem_cons.mpr ⟨hstep.2.trans hle, hall⟩, hstep.1.trans hle, ?_⟩
    rcases hlast with heq | ⟨i, y, hy, hlt, heq⟩
    · rw [heq]
      unfold larger
      split
      · next h => exact .inr ⟨0, x, rfl, h, rfl⟩
      · exact .inl rfl
    · refine .inr ⟨i + 1, y, hy, hstep.1.trans_lt hlt, ?_⟩
      rw [heq, show start + 1 + i = start + (i + 1) by omega]

/-- The position found has a number that is not zero. -/
theorem largest?_eq_some {numbers : List Rat} {position : Nat} (h : largest? numbers = some position) :
    ∃ x, numbers[position]? = some x ∧ x ≠ 0 := by
  obtain ⟨-, -, hlast⟩ := foldl_larger numbers 0 (none, 0)
  unfold largest? at h
  rcases hlast with heq | ⟨i, x, hx, hlt, heq⟩
  · rw [heq] at h
    cases h
  · rw [heq, zero_add] at h
    cases h
    refine ⟨x, hx, ?_⟩
    rintro rfl
    exact absurd hlt (by simp)

/-- If no position is found, all numbers are zero. -/
theorem largest?_eq_none {numbers : List Rat} (h : largest? numbers = none) :
    ∀ x ∈ numbers, x = 0 := by
  obtain ⟨hall, -, hlast⟩ := foldl_larger numbers 0 (none, 0)
  unfold largest? at h
  rcases hlast with heq | ⟨i, x, -, -, heq⟩
  · intro x hx
    have hle := hall x hx
    rw [heq] at hle
    exact Rat.abs_eq_zero_iff.mp (le_antisymm hle x.abs_nonneg)
  · rw [heq] at h
    cases h

/-- The equation that is taken out is the one at the position, and the others stay. -/
theorem takeOut_eq_some {position : Nat} {equations others : List LinearEquation}
    {equation : LinearEquation} (h : takeOut position equations = some (equation, others)) :
    equations[position]? = some equation ∧ equations.Perm (equation :: others) := by
  match equations, position with
  | [], _ => cases h
  | first :: rest, 0 =>
    cases h
    exact ⟨rfl, .refl _⟩
  | first :: rest, k + 1 =>
    obtain ⟨pivot, hpivot, heq⟩ := Option.map_eq_some_iff.mp h
    cases heq
    refine ⟨hpivot, ?_⟩
    have hperm := List.getD_set_perm_cons rest k first
    rw [hpivot] at hperm
    exact hperm.symm

theorem takeOut_ne_none {position : Nat} {equations : List LinearEquation}
    (h : position < equations.length) : takeOut position equations ≠ none := by
  match equations, position with
  | first :: rest, 0 => simp [takeOut]
  | first :: rest, k + 1 => simpa [takeOut] using h

/-! ## The invariant -/

/-- All equations, the solved ones first. -/
def equations (state : Elimination) : List LinearEquation :=
  state.solved.map Prod.snd ++ state.unsolved

/-- What holds after the first `processed` columns, of `columns` ones. -/
structure Progress (columns : Nat) (original : List LinearEquation) (processed : Nat)
    (state : Elimination) : Prop where
  sized : ∀ e ∈ state.equations, e.coefficients.length = columns
  solutions : ∀ v, (∀ e ∈ state.equations, e.Holds columns v) ↔ ∀ e ∈ original, e.Holds columns v
  pivots_lt : ∀ c ∈ state.pivots, c < processed
  pivots_ascending : state.pivots.Pairwise (· < ·)
  pivot_one : ∀ s ∈ state.solved, s.2.coefficientAt s.1 = 1
  pivot_zero : ∀ s ∈ state.solved, ∀ c ∈ state.pivots, c ≠ s.1 → s.2.coefficientAt c = 0
  unsolved_zero : ∀ e ∈ state.unsolved, ∀ j < processed, e.coefficientAt j = 0

/-- The state after an equation is solved for the unknown of a column: `unit` is that equation, and the
unknown is removed from all others. -/
def pivotOn (state : Elimination) (column : Nat) (unit : LinearEquation)
    (others : List LinearEquation) (determinant : Rat) : Elimination where
  solved := state.solved.map (fun s => (s.1, unit.clear column s.2)) ++ [(column, unit)]
  unsolved := others.map (unit.clear column)
  determinant := determinant

/-- What a step does: nothing if no unsolved equation has the unknown, and otherwise one of them is
solved for it. -/
theorem step_cases (state : Elimination) (column : Nat) :
    ((∀ e ∈ state.unsolved, e.coefficientAt column = 0) ∧ state.step column = state) ∨
    ∃ position pivot others, pivot.coefficientAt column ≠ 0 ∧
      takeOut position state.unsolved = some (pivot, others) ∧
      state.step column = state.pivotOn column (pivot.divide (pivot.coefficientAt column)) others
        (state.determinant * (if position = 0 then pivot.coefficientAt column
          else -pivot.coefficientAt column)) := by
  unfold step
  cases hlargest : largest? (state.unsolved.map (·.coefficientAt column)) with
  | none =>
    refine .inl ⟨fun e he => largest?_eq_none hlargest _ (List.mem_map.mpr ⟨e, he, rfl⟩), rfl⟩
  | some position =>
    obtain ⟨x, hx, hne⟩ := largest?_eq_some hlargest
    rw [List.getElem?_map, Option.map_eq_some_iff] at hx
    obtain ⟨pivot, hpivot, rfl⟩ := hx
    cases htake : takeOut position state.unsolved with
    | none => exact absurd htake (takeOut_ne_none (List.getElem?_eq_some_iff.mp hpivot).1)
    | some taken =>
      obtain ⟨equation, others⟩ := taken
      obtain rfl := Option.some.inj (hpivot.symm.trans (takeOut_eq_some htake).1)
      exact .inr ⟨position, pivot, others, hne, htake, by simp only [htake]; rfl⟩

theorem Progress.pivots_nodup {columns processed : Nat} {original : List LinearEquation}
    {state : Elimination} (h : Progress columns original processed state) : state.pivots.Nodup :=
  h.pivots_ascending.imp ne_of_lt

section Pivot

variable {columns processed column : Nat} {original others : List LinearEquation}
  {state : Elimination} {unit pivot : LinearEquation} {determinant : Rat}

theorem equations_pivotOn : (state.pivotOn column unit others determinant).equations =
    (state.solved.map Prod.snd).map (unit.clear column) ++ unit :: others.map (unit.clear column) := by
  simp [equations, pivotOn, Function.comp_def]

theorem determinant_pivotOn :
    (state.pivotOn column unit others determinant).determinant = determinant := rfl

theorem pivots_pivotOn :
    (state.pivotOn column unit others determinant).pivots = state.pivots ++ [column] := by
  simp [pivots, pivotOn, Function.comp_def]

/-- A property of the solved equations is one of the new one and of what the others become. -/
theorem forall_solved_pivotOn {p : Nat × LinearEquation → Prop} :
    (∀ s ∈ (state.pivotOn column unit others determinant).solved, p s) ↔
      (∀ s ∈ state.solved, p (s.1, unit.clear column s.2)) ∧ p (column, unit) := by
  simp only [pivotOn, List.forall_mem_append, List.forall_mem_map, List.forall_mem_singleton]

/-- Solving an equation for an unknown keeps the solutions. -/
theorem holds_pivotOn {v : Nat → Rat}
    (hsized : ∀ e ∈ state.solved.map Prod.snd ++ others, e.coefficients.length = unit.coefficients.length)
    (hperm : state.equations.Perm (pivot :: (state.solved.map Prod.snd ++ others)))
    (hunit : unit.Holds columns v ↔ pivot.Holds columns v) :
    (∀ e ∈ (state.pivotOn column unit others determinant).equations, e.Holds columns v) ↔
      ∀ e ∈ state.equations, e.Holds columns v := by
  have hold : (∀ e ∈ state.equations, e.Holds columns v) ↔
      pivot.Holds columns v ∧ ∀ e ∈ state.solved.map Prod.snd ++ others, e.Holds columns v := by
    rw [← List.forall_mem_cons]
    exact forall_congr' fun e => by rw [hperm.mem_iff]
  have hnew : (∀ e ∈ (state.pivotOn column unit others determinant).equations, e.Holds columns v) ↔
      unit.Holds columns v ∧
        ∀ e ∈ state.solved.map Prod.snd ++ others, (unit.clear column e).Holds columns v := by
    simp only [equations_pivotOn, List.forall_mem_append, List.forall_mem_cons, List.forall_mem_map]
    tauto
  rw [hold, hnew, hunit]
  refine and_congr_right fun hpivot => forall₂_congr fun e he => ?_
  exact holds_subtract (hsized e he) _ (hunit.mpr hpivot)

/-- Solving an unsolved equation for the unknown of the next column processes the column. -/
theorem Progress.pivotOn (h : Progress columns original processed state)
    (hperm : state.unsolved.Perm (pivot :: others)) (hlength : unit.coefficients.length = columns)
    (hunit : ∀ v, unit.Holds columns v ↔ pivot.Holds columns v)
    (hone : unit.coefficientAt processed = 1) (hzero : ∀ j < processed, unit.coefficientAt j = 0) :
    Progress columns original (processed + 1) (state.pivotOn processed unit others determinant) := by
  have hequations : state.equations.Perm (pivot :: (state.solved.map Prod.snd ++ others)) :=
    (hperm.append_left _).trans List.perm_middle
  have hsized : ∀ e ∈ state.solved.map Prod.snd ++ others,
      e.coefficients.length = unit.coefficients.length := fun e he =>
    (h.sized e (hequations.mem_iff.mpr (List.mem_cons_of_mem _ he))).trans hlength.symm
  have hsolved : ∀ s ∈ state.solved, s.2.coefficients.length = unit.coefficients.length :=
    fun s hs => hsized _ (List.mem_append_left _ (List.mem_map.mpr ⟨s, hs, rfl⟩))
  have hothers : ∀ e ∈ others, e.coefficients.length = unit.coefficients.length :=
    fun e he => hsized e (List.mem_append_right _ he)
  have hlt : ∀ s ∈ state.solved, s.1 < processed :=
    fun s hs => h.pivots_lt _ (List.mem_map.mpr ⟨s, hs, rfl⟩)
  constructor
  case sized =>
    rw [equations_pivotOn, List.forall_mem_append, List.forall_mem_cons, List.forall_mem_map,
      List.forall_mem_map, List.forall_mem_map]
    exact ⟨fun s hs => (length_subtract (hsolved s hs) _).trans hlength, hlength,
      fun e he => (length_subtract (hothers e he) _).trans hlength⟩
  case solutions => exact fun v => (holds_pivotOn hsized hequations (hunit v)).trans (h.solutions v)
  case pivots_lt =>
    rw [pivots_pivotOn, List.forall_mem_append, List.forall_mem_singleton]
    exact ⟨fun c hc => (h.pivots_lt c hc).trans (Nat.lt_succ_self _), Nat.lt_succ_self _⟩
  case pivots_ascending =>
    rw [pivots_pivotOn, List.pairwise_append]
    exact ⟨h.pivots_ascending, List.pairwise_singleton _ _, by simpa using h.pivots_lt⟩
  case pivot_one =>
    refine forall_solved_pivotOn.mpr ⟨fun s hs => ?_, hone⟩
    rw [coefficientAt_clear_of_zero (hsolved s hs) (hzero _ (hlt s hs))]
    exact h.pivot_one s hs
  case pivot_zero =>
    simp only [forall_solved_pivotOn, pivots_pivotOn, List.forall_mem_append,
      List.forall_mem_singleton]
    refine ⟨fun s hs => ⟨fun c hc hne => ?_, fun _ => coefficientAt_clear_self (hsolved s hs) hone⟩,
      fun c hc _ => hzero c (h.pivots_lt c hc), fun hne => absurd rfl hne⟩
    rw [coefficientAt_clear_of_zero (hsolved s hs) (hzero c (h.pivots_lt c hc))]
    exact h.pivot_zero s hs c hc hne
  case unsolved_zero =>
    refine List.forall_mem_map.mpr fun e he j hj => ?_
    rcases Nat.lt_succ_iff_lt_or_eq.mp hj with hj | rfl
    · rw [coefficientAt_clear_of_zero (hothers e he) (hzero j hj)]
      exact h.unsolved_zero e (hperm.mem_iff.mpr (List.mem_cons_of_mem _ he)) j hj
    · exact coefficientAt_clear_self (hothers e he) hone

/-- A step processes one more column. -/
theorem Progress.step (h : Progress columns original processed state) :
    Progress columns original (processed + 1) (state.step processed) := by
  rcases step_cases state processed with ⟨hzero, heq⟩ | ⟨position, pivot, others, hne, htake, heq⟩
  · rw [heq]
    exact { h with
      pivots_lt := fun c hc => (h.pivots_lt c hc).trans (Nat.lt_succ_self _)
      unsolved_zero := fun e he j hj => by
        rcases Nat.lt_succ_iff_lt_or_eq.mp hj with hj | rfl
        · exact h.unsolved_zero e he j hj
        · exact hzero e he }
  · have hperm := (takeOut_eq_some htake).2
    have hpivot : pivot ∈ state.unsolved := hperm.symm.subset (by simp)
    rw [heq]
    refine h.pivotOn hperm ?_ (fun v => holds_divide hne) ?_ fun j hj => ?_
    · rw [length_divide]
      exact h.sized pivot (List.mem_append_right _ hpivot)
    · rw [coefficientAt_divide, div_self hne]
    · rw [coefficientAt_divide, h.unsolved_zero pivot hpivot j hj, zero_div]

end Pivot

theorem progress_steps {columns : Nat} {original : List LinearEquation}
    (hsized : ∀ e ∈ original, e.coefficients.length = columns) (n : Nat) :
    Progress columns original n ((List.range n).foldl step ⟨[], original, 1⟩) := by
  induction n with
  | zero =>
    exact ⟨by simpa [equations] using hsized, by simp [equations], by simp [pivots], by simp [pivots],
      by simp, by simp, by simp⟩
  | succ n ih =>
    rw [List.range_succ, List.foldl_append]
    exact ih.step

/-- After all columns have been processed. -/
theorem progress_run {columns : Nat} {original : List LinearEquation}
    (hsized : ∀ e ∈ original, e.coefficients.length = columns) :
    Progress columns original columns (run columns original) :=
  progress_steps hsized columns

/-! ## Reading off the solutions -/

section Solutions

variable {columns : Nat} {original : List LinearEquation} {state : Elimination}

theorem mem_freeColumns {c : Nat} :
    c ∈ state.freeColumns columns ↔ c < columns ∧ c ∉ state.pivots := by
  simp [freeColumns]

theorem nodup_freeColumns : (state.freeColumns columns).Nodup :=
  List.nodup_range.filter _

/-- Every column has a pivot or is free. -/
theorem Progress.rank_add_length (h : Progress columns original columns state) :
    state.rank + (state.freeColumns columns).length = columns := by
  have hperm : (state.pivots ++ state.freeColumns columns).Perm (List.range columns) := by
    refine (List.perm_ext_iff_of_nodup ?_ List.nodup_range).mpr fun c => ?_
    · refine h.pivots_nodup.append nodup_freeColumns fun c hc hfree => ?_
      exact (mem_freeColumns.mp hfree).2 hc
    · rw [List.mem_append, mem_freeColumns, List.mem_range]
      have := h.pivots_lt c
      tauto
  have hlength := hperm.length_eq
  rw [List.length_append, List.length_range, pivots, List.length_map] at hlength
  exact hlength

/-- With a contradiction there is no solution. -/
theorem Progress.not_holds (h : Progress columns original columns state) {row : Nat}
    (hrow : state.contradiction? = some row) (v : Nat → Rat) :
    ¬ ∀ e ∈ original, e.Holds columns v := by
  rw [← h.solutions v]
  intro hall
  obtain ⟨position, hposition, -⟩ := Option.map_eq_some_iff.mp hrow
  obtain ⟨hlt, hcontradiction, -⟩ := List.findIdx?_eq_some_iff_getElem.mp hposition
  have hmem : state.unsolved[position] ∈ state.unsolved := List.getElem_mem hlt
  have hmem' := List.mem_append_right (state.solved.map Prod.snd) hmem
  have hholds := (holds_iff_of_zero (h.sized _ hmem') (h.unsolved_zero _ hmem)).mp (hall _ hmem')
  rw [hcontradiction] at hholds
  cases hholds

/-- A solved equation gives its unknown in terms of the free ones. -/
theorem Progress.holds_solved (h : Progress columns original columns state) {s : Nat × LinearEquation}
    (hs : s ∈ state.solved) (v : Nat → Rat) :
    s.2.Holds columns v ↔ v s.1 = s.2.value -
      ((state.freeColumns columns).map fun j => s.2.coefficientAt j * v j).sum := by
  have hpivot : s.1 ∈ state.pivots := List.mem_map.mpr ⟨s, hs, rfl⟩
  have hsplit : ∑ j ∈ range columns, s.2.coefficientAt j * v j = v s.1 +
      ((state.freeColumns columns).map fun j => s.2.coefficientAt j * v j).sum := by
    rw [← List.sum_toFinset _ nodup_freeColumns]
    have hsubset : insert s.1 (state.freeColumns columns).toFinset ⊆ range columns := by
      intro j hj
      rcases mem_insert.mp hj with rfl | hj
      · exact mem_range.mpr (h.pivots_lt _ hpivot)
      · exact mem_range.mpr (mem_freeColumns.mp (List.mem_toFinset.mp hj)).1
    have hnot : s.1 ∉ (state.freeColumns columns).toFinset := by
      rw [List.mem_toFinset, mem_freeColumns]
      exact fun hfree => hfree.2 hpivot
    rw [← sum_subset hsubset, sum_insert hnot, h.pivot_one s hs, one_mul]
    intro j hj hother
    rw [mem_insert, List.mem_toFinset, mem_freeColumns, not_or] at hother
    have hpivots : j ∈ state.pivots := by
      by_contra hfree
      exact hother.2 ⟨mem_range.mp hj, hfree⟩
    rw [h.pivot_zero s hs j hpivots hother.1, zero_mul]
  rw [LinearEquation.Holds, hsplit]
  exact eq_sub_iff_add_eq.symm

/-- Without a contradiction the solutions are those of the solved equations. -/
theorem Progress.holds_iff (h : Progress columns original columns state)
    (hnone : state.contradiction? = none) (v : Nat → Rat) :
    (∀ e ∈ original, e.Holds columns v) ↔ ∀ s ∈ state.solved, v s.1 = s.2.value -
      ((state.freeColumns columns).map fun j => s.2.coefficientAt j * v j).sum := by
  rw [← h.solutions v, equations, List.forall_mem_append, List.forall_mem_map]
  have hunsolved : ∀ e ∈ state.unsolved, e.Holds columns v := by
    intro e he
    rw [contradiction?, Option.map_eq_none_iff, List.findIdx?_eq_none_iff] at hnone
    exact (holds_iff_of_zero (h.sized e (List.mem_append_right _ he)) (h.unsolved_zero e he)).mpr
      (hnone e he)
  rw [and_iff_left hunsolved]
  exact forall₂_congr fun s hs => h.holds_solved hs v

end Solutions

/-! ## The family of solutions -/

section Family

variable {columns : Nat} {original : List LinearEquation} {state : Elimination}

/-- The value of the unknown of a column where the free unknowns are zero. -/
def particularAt (state : Elimination) (column : Nat) : Rat :=
  match state.solvedFor? column with
  | some equation => equation.value
  | none => 0

theorem particular_eq (state : Elimination) (columns : Nat) :
    state.particular columns = (List.range columns).map state.particularAt := rfl

/-- How the unknown of a column changes with the free one of another. -/
def directionAt (state : Elimination) (free column : Nat) : Rat :=
  if column = free then 1
  else
    match state.solvedFor? column with
    | some equation => -equation.coefficientAt free
    | none => 0

theorem direction_eq (state : Elimination) (columns free : Nat) :
    state.direction columns free = (List.range columns).map (state.directionAt free) := rfl

/-- The unknowns where the free ones have the values `t`. -/
def point (state : Elimination) (columns : Nat) (t : Fin (state.freeColumns columns).length → Rat)
    (column : Nat) : Rat :=
  state.particularAt column +
    ∑ k, t k * state.directionAt (state.freeColumns columns)[k.val] column

theorem Progress.solvedFor?_eq_some (h : Progress columns original columns state)
    {s : Nat × LinearEquation} (hs : s ∈ state.solved) : state.solvedFor? s.1 = some s.2 := by
  obtain ⟨front, rest, heq⟩ := List.append_of_mem hs
  refine List.lookup_eq_some_iff.mpr ⟨front, rest, heq, fun p hp => ?_⟩
  have hnodup := h.pivots_nodup
  rw [pivots, heq, List.map_append, List.nodup_append] at hnodup
  have := hnodup.2.2 p.1 (List.mem_map.mpr ⟨p, hp, rfl⟩) s.1 (by simp)
  simpa using this.symm

theorem solvedFor?_eq_none {column : Nat} (h : column ∉ state.pivots) :
    state.solvedFor? column = none := by
  refine List.lookup_eq_none_iff.mpr fun p hp => ?_
  have : column ≠ p.1 := fun heq => h (List.mem_map.mpr ⟨p, hp, heq.symm⟩)
  simpa using this

/-- A free unknown has the value of its parameter. -/
theorem point_free (t : Fin (state.freeColumns columns).length → Rat)
    (k : Fin (state.freeColumns columns).length) :
    state.point columns t (state.freeColumns columns)[k.val] = t k := by
  have hfree : (state.freeColumns columns)[k.val] ∉ state.pivots :=
    (mem_freeColumns.mp (List.getElem_mem k.2)).2
  have hnone := solvedFor?_eq_none hfree
  have hdirection : ∀ l, state.directionAt (state.freeColumns columns)[l.val]
      (state.freeColumns columns)[k.val] = if l = k then 1 else 0 := by
    intro l
    have hinj := @List.Nodup.getElem_inj_iff _ _ (@nodup_freeColumns columns state) k k.2 l l.2
    unfold directionAt
    rw [hnone]
    simp [hinj, Fin.ext_iff, eq_comm]
  unfold point particularAt
  simp only [hnone, hdirection]
  simp

/-- Points solve the solved equations. -/
theorem Progress.point_solved (h : Progress columns original columns state)
    (t : Fin (state.freeColumns columns).length → Rat) {s : Nat × LinearEquation}
    (hs : s ∈ state.solved) :
    state.point columns t s.1 = s.2.value -
      ((state.freeColumns columns).map fun j => s.2.coefficientAt j * state.point columns t j).sum := by
  have hpivot : s.1 ∈ state.pivots := List.mem_map.mpr ⟨s, hs, rfl⟩
  have hsolved := h.solvedFor?_eq_some hs
  have hdirection : ∀ k : Fin (state.freeColumns columns).length,
      state.directionAt (state.freeColumns columns)[k.val] s.1 =
        -s.2.coefficientAt (state.freeColumns columns)[k.val] := by
    intro k
    have hne : s.1 ≠ (state.freeColumns columns)[k.val] := by
      intro heq
      exact (mem_freeColumns.mp (List.getElem_mem k.2)).2 (heq ▸ hpivot)
    unfold directionAt
    rw [if_neg hne, hsolved]
  rw [← Fin.sum_univ_fun_getElem]
  simp only [point_free]
  unfold point particularAt
  rw [hsolved, sub_eq_add_neg, ← sum_neg_distrib]
  congr 1
  refine sum_congr rfl fun k _ => ?_
  rw [hdirection k]
  ring

/-- Solutions are points, of the values that they have at the free columns. -/
theorem Progress.eq_point (h : Progress columns original columns state) {v : Nat → Rat}
    (hv : ∀ s ∈ state.solved, v s.1 = s.2.value -
      ((state.freeColumns columns).map fun j => s.2.coefficientAt j * v j).sum)
    {column : Nat} (hcolumn : column < columns) :
    v column = state.point columns (fun k => v (state.freeColumns columns)[k.val]) column := by
  have hfree : ∀ j ∈ state.freeColumns columns,
      state.point columns (fun k => v (state.freeColumns columns)[k.val]) j = v j := by
    intro j hj
    obtain ⟨k, hk, rfl⟩ := List.getElem_of_mem hj
    exact point_free _ ⟨k, hk⟩
  by_cases hpivot : column ∈ state.pivots
  · obtain ⟨s, hs, rfl⟩ := List.mem_map.mp hpivot
    rw [hv s hs, h.point_solved _ hs]
    congr 2
    exact List.map_congr_left fun j hj => by rw [hfree j hj]
  · exact (hfree column (mem_freeColumns.mpr ⟨hcolumn, hpivot⟩)).symm

end Family

end Elimination

end ClosedForm
