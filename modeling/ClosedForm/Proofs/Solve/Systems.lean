import ClosedForm.Proofs.Reduction
import ClosedForm.Proofs.Solve.Equations
import ClosedForm.Proofs.Value.Multivariate
import Std.Data.String.ToNat

/-!
# Solving systems of linear equations exactly

For equations that are polynomial expressions, an answer of `solveSystem` says what the solutions
are (`Session.solveSystem_exact`): there is none if the equations are reported to contradict each other,
a single one if it is given, and otherwise the family given parametrizes them, by the values of
its free unknowns.

The solutions are vectors of rational numbers. Symbols that are no unknowns may have any values: an
equation that is accepted does not depend on them.
-/

namespace ClosedForm

open ClosedForm.Expr Canonical
open Interpretation (Gives complex)

variable {K : Type*} [Field K] [CharZero K] {M : Interpretation K} {bounds : Bounds}

/-! ## Polynomial expressions -/

/-- Polynomial expressions have a value everywhere. -/
theorem Expr.IsPolynomial.gives {e : Expr} (h : e.IsPolynomial) : ∃ f, M.Gives e f :=
  ⟨_, fun _ => h.value_eq⟩

/-! ## Solutions -/

namespace LinearSystem

variable {unknowns : List String}

/-- The assignment of a vector to the unknowns; other symbols have their values from `ρ`. -/
def assign (unknowns : List String) (v : Fin unknowns.length → Rat) (ρ : String → K)
    (name : String) : K :=
  if h : name ∈ unknowns then v ⟨unknowns.idxOf name, List.idxOf_lt_length_iff.mpr h⟩ else ρ name

omit [CharZero K] in
theorem assign_get (hnodup : unknowns.Nodup) (v : Fin unknowns.length → Rat) (ρ : String → K)
    (j : Fin unknowns.length) : assign unknowns v ρ (unknowns.get j) = v j := by
  unfold assign
  rw [dif_pos (List.get_mem unknowns j)]
  congr
  exact hnodup.idxOf_getElem j.val j.2

/-- The vectors at which all equations have the value zero. -/
def solutions (M : Interpretation K) (ρ : String → K) (unknowns : List String) (equations : List Expr) :
    Set (Fin unknowns.length → Rat) :=
  {v | ∀ e ∈ equations, M.value (assign unknowns v ρ) e = some 0}

/-- A vector as values of all columns. -/
def extend {n : Nat} (v : Fin n → Rat) (column : Nat) : Rat :=
  if h : column < n then v ⟨column, h⟩ else 0

theorem extend_of_lt {n : Nat} (v : Fin n → Rat) {column : Nat} (h : column < n) :
    extend v column = v ⟨column, h⟩ :=
  dif_pos h

theorem extend_val {n : Nat} (v : Fin n → Rat) (j : Fin n) : extend v j = v j :=
  extend_of_lt v j.2

/-- An equation has the value zero where the linear equation holds that it is read as. -/
theorem Reads.value_eq_zero_iff {e : Expr} {f : (String → K) → K} {equation : LinearEquation}
    (hnodup : unknowns.Nodup) (hf : M.Gives e f) (h : Reads unknowns f equation)
    (v : Fin unknowns.length → Rat) (ρ : String → K) :
    M.value (assign unknowns v ρ) e = some 0 ↔ equation.Holds unknowns.length (extend v) := by
  have hsum : (∑ j : Fin unknowns.length, (equation.coefficientAt j : K) *
      assign unknowns v ρ unknowns[j.val]) =
        ((∑ j : Fin unknowns.length, equation.coefficientAt j * v j : Rat) : K) := by
    rw [Rat.cast_sum]
    refine Finset.sum_congr rfl fun j _ => ?_
    rw [← List.get_eq_getElem, assign_get hnodup, Rat.cast_mul]
  have hrange : ∑ j ∈ Finset.range unknowns.length, equation.coefficientAt j * extend v j =
      ∑ j : Fin unknowns.length, equation.coefficientAt j * v j := by
    rw [Finset.sum_range]
    simp only [extend_val]
  rw [hf, h.value, Option.some.injEq, sub_eq_zero]
  unfold LinearEquation.Holds
  rw [hrange, ← Rat.cast_inj (α := K)]
  exact hsum ▸ Iff.rfl

theorem mem_solutions_iff {equations : List Expr} {linear : List (Expr × LinearEquation)}
    (hnodup : unknowns.Nodup) (hequations : ∀ e ∈ equations, ∃ f, M.Gives e f)
    (h : ReadsAll M unknowns equations linear) (v : Fin unknowns.length → Rat) (ρ : String → K) :
    v ∈ solutions M ρ unknowns equations ↔
      ∀ l ∈ linear.map Prod.snd, l.Holds unknowns.length (extend v) := by
  rw [List.forall_mem_map]
  show (∀ e ∈ equations, M.value (assign unknowns v ρ) e = some 0) ↔ _
  induction h with
  | nil => simp
  | @cons e l es ls hreads _ ih =>
    obtain ⟨f, hf⟩ := hequations e (by simp)
    rw [List.forall_mem_cons, List.forall_mem_cons, ih fun d hd => hequations d (by simp [hd]),
      (hreads f hf).value_eq_zero_iff hnodup hf]

end LinearSystem

/-! ## Names of parameters -/

namespace LinearSystem

theorem parameterName_injective : Function.Injective fun i : Nat => "t" ++ toString (i + 1) := by
  intro i j h
  have hrepr : toString (i + 1) = toString (j + 1) := String.append_right_inj _ |>.mp h
  exact Nat.succ.inj (Nat.repr_inj.mp hrepr)

variable {unknowns : List String} {count : Nat}

theorem nodup_parameterNames : (parameterNames unknowns count).Nodup :=
  ((List.nodup_range.map parameterName_injective).filter _).sublist (List.take_sublist _ _)

theorem not_mem_of_mem_parameterNames {name : String} (h : name ∈ parameterNames unknowns count) :
    name ∉ unknowns := by
  have := (List.mem_filter.mp (List.mem_of_mem_take h)).2
  simpa using this

/-- Names that unknowns take away are at most as many as there are unknowns. -/
theorem length_parameterNames : (parameterNames unknowns count).length = count := by
  unfold parameterNames
  generalize hnames : (List.range (count + unknowns.length)).map
    (fun i => "t" ++ toString (i + 1)) = names
  have hlength : names.length = count + unknowns.length := by
    rw [← hnames, List.length_map, List.length_range]
  have hnodup : names.Nodup := hnames ▸ List.nodup_range.map parameterName_injective
  have htaken : (names.filter fun name => unknowns.contains name).length ≤ unknowns.length := by
    refine ((hnodup.filter _).subperm fun name hname => ?_).length_le
    simpa using (List.mem_filter.mp hname).2
  have hsplit := List.length_eq_length_filter_add (l := names) fun name => unknowns.contains name
  rw [List.length_take]
  omega

end LinearSystem

/-! ## Families of solutions -/

/-- A point and directions in the space of some unknowns, with a free unknown for each direction and
the name of its parameter. -/
structure AffineFamily (n k : Nat) where
  particular : Fin n → Rat
  basis : Fin k → Fin n → Rat
  free : Fin k → Fin n
  parameter : Fin k → String

namespace AffineFamily

variable {n k : Nat}

/-- The point that moves by `t i` in the direction `i`. -/
def point (A : AffineFamily n k) (t : Fin k → Rat) (j : Fin n) : Rat :=
  A.particular j + ∑ i, t i * A.basis i j

/-- The points are the vectors of the set, each of them once, and the parameters are the values of
the free unknowns. -/
structure Parametrizes (A : AffineFamily n k) (S : Set (Fin n → Rat)) : Prop where
  bijOn : Set.BijOn A.point Set.univ S
  point_free : ∀ t i, A.point t (A.free i) = t i

/-- The answer gives the family, whose parameters have names of their own. -/
structure Presents (A : AffineFamily n k) (unknowns : List String) (family : SolutionFamily)
    (diagnostics : Diagnostics) : Prop where
  parameter_injective : Function.Injective A.parameter
  parameter_new : ∀ i, A.parameter i ∉ unknowns
  rank_add : diagnostics.rank + k = n
  freeColumns : diagnostics.freeColumns = List.ofFn fun i => (A.free i).val
  unknowns : family.unknowns = unknowns
  particular : family.particular = List.ofFn fun j => .constant (A.particular j)
  basis : family.basis = List.ofFn fun i => List.ofFn fun j => .constant (A.basis i j)
  parameters : family.parameters = List.ofFn A.parameter

/-- The family that elimination finds. -/
def ofElimination (state : Elimination) (unknowns : List String) :
    AffineFamily unknowns.length (state.freeColumns unknowns.length).length where
  particular j := state.particularAt j
  basis i j := state.directionAt (state.freeColumns unknowns.length)[i.val] j
  free i := ⟨(state.freeColumns unknowns.length)[i.val],
    (Elimination.mem_freeColumns.mp (List.getElem_mem i.2)).1⟩
  parameter i := (LinearSystem.parameterNames unknowns _).get
    (i.cast LinearSystem.length_parameterNames.symm)

variable {unknowns : List String}

theorem point_ofElimination (state : Elimination)
    (t : Fin (state.freeColumns unknowns.length).length → Rat) (j : Fin unknowns.length) :
    (ofElimination state unknowns).point t j = state.point unknowns.length t j := rfl

open LinearSystem in
/-- After elimination without a contradiction the family parametrizes the solutions. -/
theorem parametrizes_ofElimination {original : List LinearEquation} {state : Elimination}
    (h : state.Progress unknowns.length original unknowns.length)
    (hnone : state.contradiction? = none) :
    (ofElimination state unknowns).Parametrizes
      {v | ∀ e ∈ original, e.Holds unknowns.length (extend v)} := by
  have hfree : ∀ t i, (ofElimination state unknowns).point t
      ((ofElimination state unknowns).free i) = t i := fun t i => Elimination.point_free t i
  have hpivot : ∀ s ∈ state.solved, s.1 < unknowns.length := fun s hs =>
    h.pivots_lt _ (List.mem_map.mpr ⟨s, hs, rfl⟩)
  refine ⟨⟨fun t _ => ?_, fun t _ u _ heq => ?_, fun v hv => ?_⟩, hfree⟩
  · show ∀ e ∈ original, e.Holds unknowns.length (extend _)
    rw [h.holds_iff hnone]
    intro s hs
    rw [extend_of_lt _ (hpivot s hs), point_ofElimination]
    refine (h.point_solved t hs).trans ?_
    congr 2
    refine List.map_congr_left fun j hj => ?_
    rw [extend_of_lt _ (Elimination.mem_freeColumns.mp hj).1, point_ofElimination]
  · funext i
    rw [← hfree t i, heq, hfree]
  · refine ⟨fun i => extend v (state.freeColumns unknowns.length)[i.val], trivial,
      funext fun j => ?_⟩
    have hv : ∀ e ∈ original, e.Holds unknowns.length (extend v) := hv
    rw [h.holds_iff hnone] at hv
    rw [point_ofElimination, ← h.eq_point hv j.2, extend_val]

open LinearSystem in
/-- The answer made from elimination gives the family that it finds. -/
theorem presents_ofElimination {original : List LinearEquation} {state : Elimination}
    (h : state.Progress unknowns.length original unknowns.length) {family : SolutionFamily}
    (hfamily : solution state unknowns = .family family) (equations : List Expr) :
    (ofElimination state unknowns).Presents unknowns family
      (diagnostics state unknowns.length equations) := by
  unfold solution at hfamily
  dsimp only at hfamily
  split at hfamily
  · cases hfamily
  · cases hfamily
    exact {
      parameter_injective := fun i j hij => by
        have := (List.nodup_iff_injective_get.mp nodup_parameterNames) hij
        simpa [Fin.ext_iff] using this
      parameter_new := fun i => not_mem_of_mem_parameterNames (List.get_mem _ _)
      rank_add := h.rank_add_length
      freeColumns := List.ext_getElem (by simp [diagnostics]) fun i _ _ => by
        simp [diagnostics, ofElimination]
      unknowns := rfl
      particular := List.ext_getElem (by simp [Elimination.particular]) fun i _ _ => by
        simp [Elimination.particular_eq, ofElimination]
      basis := List.ext_getElem (by simp) fun i _ _ => by
        refine List.ext_getElem (by simp [Elimination.direction]) fun j _ _ => ?_
        simp [Elimination.direction_eq, ofElimination]
      parameters := List.ext_getElem (by simp [length_parameterNames]) fun i _ _ => by
        simp [ofElimination] }

/-- A family without parameters is a single point. -/
theorem Parametrizes.eq_singleton {A : AffineFamily n 0} {S : Set (Fin n → Rat)}
    (h : A.Parametrizes S) : S = {A.particular} := by
  have hpoint : ∀ t, A.point t = A.particular := fun t => funext fun j => by simp [point]
  rw [← h.bijOn.image_eq]
  ext v
  simp [hpoint]

/-- A family with parameters has more than one point. -/
theorem Parametrizes.nontrivial {A : AffineFamily n k} {S : Set (Fin n → Rat)}
    (h : A.Parametrizes S) (hk : 0 < k) : S.Nontrivial := by
  refine ⟨A.point fun _ => 0, h.bijOn.mapsTo trivial, A.point fun _ => 1, h.bijOn.mapsTo trivial, ?_⟩
  intro heq
  have := congrFun heq (A.free ⟨0, hk⟩)
  rw [h.point_free, h.point_free] at this
  exact absurd this (by norm_num)

end AffineFamily

/-! ## The general solution -/

namespace Canonical

/-- A number times a symbol reduces. -/
theorem exists_reduces_scaled (bounds : Bounds) (c : Rat) (name : String) :
    ∃ d, Reduces bounds (.mul [.constant c, .symbol name]) d := by
  have hchildren : List.Forall₂ (Reduces bounds) [.constant c, .symbol name]
      [.constant c, .symbol name] :=
    .cons (Normal.constant c).reduces (.cons (Normal.symbol name).reduces .nil)
  by_cases hzero : c = 0
  · subst hzero
    exact ⟨.zero, .mul hchildren (multiplyWith_eq_ok.mpr
      (.inl ⟨by simp [PowerProduct.ofFactors, factorsList, Expr.factors, PowerProduct.addFactor],
        rfl⟩)) (.constant 0)⟩
  · have hshape : FactorShape [Expr.symbol name] := factorShape_singleton rfl rfl rfl
    have hnormal : ∀ g ∈ [Expr.symbol name], Normal bounds g := by simpa using .symbol name
    have hrule := multiply_term one_ne_zero hzero hnormal hshape
    rw [withFactor_one, mul_one] at hrule
    exact ⟨_, .mul hchildren hrule (hshape.normal_term hzero hnormal)⟩

end Canonical

namespace AffineFamily

variable {n k : Nat}

theorem sumValue_ofFn {σ : String → K} {es : Fin k → Expr} {x : Fin k → K}
    (h : ∀ i, M.value σ (es i) = some (x i)) : M.sumValue σ (List.ofFn es) = some (∑ i, x i) := by
  induction k with
  | zero => rw [List.ofFn_zero, Interpretation.sumValue, Finset.univ_eq_empty, Finset.sum_empty]
  | succ k ih =>
    rw [List.ofFn_succ, Interpretation.sumValue_cons_eq_some]
    exact ⟨_, _, h 0, ih fun i => h i.succ, (Fin.sum_univ_succ x).symm⟩

/-- The terms of an unknown: its value in the particular solution, and the directions times the
parameters. -/
theorem Presents.termsAt {A : AffineFamily n k} {unknowns : List String} {family : SolutionFamily}
    {diagnostics : Diagnostics} (h : A.Presents unknowns family diagnostics) (j : Fin n) :
    family.termsAt j (.constant (A.particular j)) = .constant (A.particular j) ::
      List.ofFn fun i => .mul [.constant (A.basis i j), .symbol (A.parameter i)] := by
  unfold SolutionFamily.termsAt
  rw [h.parameters, h.basis]
  refine congrArg _ (List.ext_getElem (by simp) fun i hi _ => ?_)
  simp [List.getD_eq_getElem?_getD]

theorem Presents.value_terms {A : AffineFamily n k} {unknowns : List String}
    {family : SolutionFamily} {diagnostics : Diagnostics}
    (h : A.Presents unknowns family diagnostics) (j : Fin n) {t : Fin k → Rat} {σ : String → K}
    (hσ : ∀ i, σ (A.parameter i) = t i) :
    M.value σ (.sum (family.termsAt j (.constant (A.particular j)))) = some (A.point t j : K) := by
  have hterm (i : Fin k) : M.value σ (.mul [.constant (A.basis i j), .symbol (A.parameter i)]) =
      some (A.basis i j * t i : K) := by
    rw [Interpretation.value_mul]
    refine Interpretation.productValue_cons_eq_some.mpr ⟨_, t i, Interpretation.value_constant _, ?_, rfl⟩
    refine Interpretation.productValue_cons_eq_some.mpr ⟨t i, 1, ?_, by rw [Interpretation.productValue],
      mul_one _⟩
    rw [Interpretation.value, hσ]
  rw [h.termsAt, Interpretation.value_sum]
  refine Interpretation.sumValue_cons_eq_some.mpr ⟨_, _, Interpretation.value_constant _,
    sumValue_ofFn hterm, ?_⟩
  simp [point, mul_comm]

theorem Presents.exists_reduces {A : AffineFamily n k} {unknowns : List String}
    {family : SolutionFamily} {diagnostics : Diagnostics}
    (h : A.Presents unknowns family diagnostics) (bounds : Bounds) (j : Fin n) :
    ∃ c, Reduces bounds (.sum (family.termsAt j (.constant (A.particular j)))) c := by
  choose scaled hscaled using fun i =>
    exists_reduces_scaled bounds (A.basis i j) (A.parameter i)
  have hterms : List.Forall₂ (Reduces bounds)
      (List.ofFn fun i => .mul [.constant (A.basis i j), .symbol (A.parameter i)])
      (List.ofFn scaled) := by
    rw [List.ofFn_eq_map, List.ofFn_eq_map, List.forall₂_map_left_iff, List.forall₂_map_right_iff,
      List.forall₂_same]
    exact fun i _ => hscaled i
  rw [h.termsAt]
  exact ⟨_, .sum (.cons (Normal.constant _).reduces hterms)⟩

/-- The expressions evaluate to the points of the family, whatever numbers the parameters stand for. -/
def GivenBy (A : AffineFamily n k) (M : Interpretation K) (es : List Expr) : Prop :=
  ∀ t : Fin k → Rat, ∀ σ : String → K, (∀ i, σ (A.parameter i) = t i) →
    es.map (M.value σ) = List.ofFn fun j => some (A.point t j : K)

/-- The general solution evaluates to the points of the family. It can be written down if there are
passes for it. -/
theorem Presents.ensures_general {A : AffineFamily n k} {unknowns : List String}
    {family : SolutionFamily} {diagnostics : Diagnostics}
    (h : A.Presents unknowns family diagnostics) :
    Ensures bounds (fun _ => bounds.maxPasses < 2) (A.GivenBy M) (family.general bounds) := by
  have hunknown (j : Fin n) : Ensures bounds (fun _ => bounds.maxPasses < 2)
      (fun c => ∀ t : Fin k → Rat, ∀ σ : String → K, (∀ i, σ (A.parameter i) = t i) →
        M.value σ c = some (A.point t j : K))
      (canonicalize bounds (.sum (family.termsAt j (.constant (A.particular j))))) := by
    intro memo hmemo
    cases hrun : ((canonicalize bounds (.sum (family.termsAt j
        (.constant (A.particular j))))).run.run memo).1 with
    | error x =>
      obtain ⟨c, hc⟩ := h.exists_reduces bounds j
      refine not_le.mp fun hpasses => ?_
      cases hrun.symm.trans (hc.canonicalize hpasses hmemo)
    | ok c =>
      intro t σ hσ
      have hvalue := canonicalize_run_value hmemo (h.value_terms (M := M) j hσ)
      rwa [hrun] at hvalue
  have hindexed : family.particular.zipIdx =
      (List.finRange n).map fun j => (.constant (A.particular j), j.val) := by
    rw [h.particular]
    exact List.ext_getElem (by simp) fun i _ _ => by simp
  intro memo hmemo
  unfold SolutionFamily.general
  rw [hindexed, List.mapM_map]
  have hall : Ensures bounds (fun _ => bounds.maxPasses < 2) (List.Forall₂ (fun (j : Fin n) c =>
      ∀ t : Fin k → Rat, ∀ σ : String → K, (∀ i, σ (A.parameter i) = t i) →
        M.value σ c = some (A.point t j : K)) (List.finRange n)) _ :=
    Ensures.mapM (fun _ => .canonicalize _) fun j _ => hunknown j
  refine (hall memo hmemo).imp fun es hes t σ hσ => ?_
  rw [List.ofFn_eq_map, ← List.forall₂_eq_eq_eq, List.forall₂_map_left_iff,
    List.forall₂_map_right_iff]
  exact (hes.imp fun j c hc => hc t σ hσ).flip

end AffineFamily

/-! ## Solving -/

/-- The answer of elimination on the linear equations that the equations are read as. -/
theorem ensures_solveSystem {unknowns : List String} (hnodup : unknowns.Nodup)
    {equations : List Expr} (hequations : ∀ e ∈ equations, ∃ f, M.Gives e f) :
    Ensures bounds
      (fun x => ∀ row, x = .singularSystem row → ∃ linear,
        LinearSystem.ReadsAll M unknowns equations linear ∧
        (Elimination.run unknowns.length (linear.map Prod.snd)).contradiction? = some row)
      (fun answer => ∃ linear, LinearSystem.ReadsAll M unknowns equations linear ∧
        (Elimination.run unknowns.length (linear.map Prod.snd)).contradiction? = none ∧
        answer = (LinearSystem.solution (Elimination.run unknowns.length (linear.map Prod.snd)) unknowns,
          LinearSystem.diagnostics (Elimination.run unknowns.length (linear.map Prod.snd))
            unknowns.length (linear.map Prod.fst)))
      (solveSystem bounds equations unknowns) := by
  refine .bind (.linearEquations unknowns equations) (fun memo hmemo =>
    (LinearSystem.ensures_linearEquations hnodup hequations memo hmemo).mono fun x hx row heq =>
      absurd heq (hx row)) fun linear hlinear => ?_
  dsimp only
  split
  · next row hrow => exact .throw fun other hother => by cases hother; exact ⟨linear, hlinear, hrow⟩
  · next hnone => exact .pure ⟨linear, hlinear, hnone, rfl⟩

namespace LinearSystem

variable {unknowns : List String} {equations : List Expr} {linear : List (Expr × LinearEquation)}

theorem ReadsAll.length (h : ReadsAll M unknowns equations linear)
    (hequations : ∀ e ∈ equations, ∃ f, M.Gives e f) :
    ∀ l ∈ linear.map Prod.snd, l.coefficients.length = unknowns.length := by
  rw [List.forall_mem_map]
  intro l hl
  obtain ⟨e, he, hreads⟩ := exists_of_forall₂_right h hl
  obtain ⟨f, hf⟩ := hequations e he
  exact (hreads f hf).length

/-- Elimination without a contradiction finds the only solution or the family of solutions. -/
theorem ReadsAll.solution_cases (h : ReadsAll M unknowns equations linear)
    (hnodup : unknowns.Nodup) (hequations : ∀ e ∈ equations, ∃ f, M.Gives e f) (ρ : String → K)
    {state : Elimination} (hstate : state = Elimination.run unknowns.length (linear.map Prod.snd))
    (hnone : state.contradiction? = none) :
    (∃ values, solution state unknowns = .unique ⟨unknowns, List.ofFn fun j => .constant (values j)⟩ ∧
      solutions M ρ unknowns equations = {values}) ∨
    ∃ family, solution state unknowns = .family family ∧
      ∃ (k : Nat) (A : AffineFamily unknowns.length k), 0 < k ∧
        (∀ es, A.Presents unknowns family (diagnostics state unknowns.length es)) ∧
        A.Parametrizes (solutions M ρ unknowns equations) := by
  have hset : solutions M ρ unknowns equations =
      {v | ∀ l ∈ linear.map Prod.snd, l.Holds unknowns.length (extend v)} :=
    Set.ext fun v => mem_solutions_iff hnodup hequations h v ρ
  have hprogress := hstate ▸ Elimination.progress_run (h.length hequations)
  have hparametrizes := hset ▸ AffineFamily.parametrizes_ofElimination hprogress hnone
  have hrank := hprogress.rank_add_length
  by_cases hfull : state.rank = unknowns.length
  · left
    have hzero : (state.freeColumns unknowns.length).length = 0 := by omega
    refine ⟨(AffineFamily.ofElimination state unknowns).particular, ?_, ?_⟩
    · unfold solution
      dsimp only
      rw [if_pos hfull]
      congr 2
      exact List.ext_getElem (by simp [Elimination.particular]) fun i _ _ => by
        simp [Elimination.particular_eq, AffineFamily.ofElimination]
    · generalize AffineFamily.ofElimination state unknowns = A at hparametrizes ⊢
      revert A
      rw [hzero]
      exact fun A hA => hA.eq_singleton
  · right
    obtain ⟨family, hfamily⟩ : ∃ family, solution state unknowns = .family family := by
      unfold solution
      dsimp only
      rw [if_neg hfull]
      exact ⟨_, rfl⟩
    exact ⟨family, hfamily, _, AffineFamily.ofElimination state unknowns, by omega,
      AffineFamily.presents_ofElimination hprogress hfamily, hparametrizes⟩

/-- With a contradiction there is no solution. -/
theorem ReadsAll.eq_empty (h : ReadsAll M unknowns equations linear)
    (hnodup : unknowns.Nodup) (hequations : ∀ e ∈ equations, ∃ f, M.Gives e f) (ρ : String → K)
    {row : Nat}
    (hrow : (Elimination.run unknowns.length (linear.map Prod.snd)).contradiction? = some row) :
    solutions M ρ unknowns equations = ∅ := by
  refine Set.eq_empty_iff_forall_notMem.mpr fun v hv => ?_
  exact (Elimination.progress_run (h.length hequations)).not_holds hrow _
    ((mem_solutions_iff hnodup hequations h v ρ).mp hv)

end LinearSystem

namespace Session

open LinearSystem

/-- In every session the general solution of a family evaluates to its points, and can be written down
if there are passes for it. -/
theorem ends_answer_general {n k : Nat} {A : AffineFamily n k} {unknowns : List String}
    {family : SolutionFamily} {diagnostics : Diagnostics}
    (h : A.Presents unknowns family diagnostics) {session : Session}
    (hsession : session.Reachable bounds) :
    Ends (fun _ => bounds.maxPasses < 2) (A.GivenBy M) (session.answer (general family)).1 := by
  have hconsistent := hsession.consistent
  have hends := h.ensures_general (M := M) session.memo hconsistent.memo
  rwa [← (general_performs hconsistent family).outcome_eq] at hends

/-- Solving a system of polynomial equations exactly: an answer says that there is no solution, gives the
only one, or gives the family of all solutions by the values of the free unknowns. A general solution
that is written down in any session evaluates to the family, and with two passes it can be written
down in every session. -/
theorem solveSystem_exact {session later : Session} (hsession : session.Reachable bounds)
    {equations : List Handle} {unknowns : List String}
    (hpolynomial : ∀ e ∈ equations.map session.pool.expr, e.IsPolynomial)
    (hnodup : unknowns.Nodup) {outcome : Except Error (SystemSolution × Diagnostics)}
    (hanswer : session.answer (solveSystem equations unknowns) = (outcome, later))
    (hends : (∃ answer, outcome = .ok answer) ∨ ∃ row, outcome = .error (.singularSystem row))
    (ρ : String → K) {S : Set (Fin unknowns.length → Rat)}
    (hS : S = solutions M ρ unknowns (equations.map session.pool.expr)) :
    ((∃ row, outcome = .error (.singularSystem row)) ↔ S = ∅) ∧
    (∀ values, (∃ diagnostics, outcome =
      .ok (.unique ⟨unknowns, List.ofFn fun j => .constant (values j)⟩, diagnostics)) ↔ S = {values}) ∧
    ((∃ family diagnostics, outcome = .ok (.family family, diagnostics)) ↔ S.Nontrivial) ∧
    ∀ family diagnostics, outcome = .ok (.family family, diagnostics) →
      ∃ (k : Nat) (A : AffineFamily unknowns.length k),
        A.Presents unknowns family diagnostics ∧ A.Parametrizes S ∧
        ∀ other : Session, other.Reachable bounds →
          (∀ es, (other.answer (general family)).1 = .ok es → A.GivenBy M es) ∧
          (2 ≤ bounds.maxPasses → ∃ es, (other.answer (general family)).1 = .ok es) := by
  have hequations : ∀ e ∈ equations.map session.pool.expr, ∃ f, M.Gives e f :=
    fun e he => (hpolynomial e he).gives
  have hconsistent := hsession.consistent
  have hsolve : Ensures bounds _ _ _ := ensures_solveSystem hnodup hequations
  replace hsolve := hsolve session.memo hconsistent.memo
  have houtcome : outcome = ((ClosedForm.solveSystem bounds (equations.map session.pool.expr)
      unknowns).run.run session.memo).1 :=
    congrArg Prod.fst ((solveSystem_performs hconsistent equations unknowns).run_eq hanswer).symm
  rw [← houtcome] at hsolve
  subst hS
  rcases hends with ⟨answer, rfl⟩ | ⟨row, rfl⟩
  · obtain ⟨linear, hreads, hnone, rfl⟩ := hsolve
    rcases hreads.solution_cases hnodup hequations ρ rfl hnone with
      ⟨values, hsolution, hvalues⟩ | ⟨family, hsolution, k, A, hk, hpresents, hparametrizes⟩
    · rw [hsolution, hvalues]
      refine ⟨⟨fun ⟨row, h⟩ => (by cases h), fun h => absurd h (Set.singleton_ne_empty values)⟩,
        fun others => ⟨fun ⟨_, h⟩ => ?_, fun h => ?_⟩,
        ⟨fun ⟨_, _, h⟩ => (by cases h), fun h => absurd h (Set.not_nontrivial_singleton)⟩,
        fun _ _ h => (by cases h)⟩
      · have hlist : List.ofFn (fun j => Expr.constant (values j)) =
            List.ofFn fun j => Expr.constant (others j) := by
          injection h with h
          injection h with h
          injection h with h
          injection h
        have := List.ofFn_injective hlist
        refine congrArg _ (funext fun j => ?_)
        exact Expr.constant.inj (congrFun this j)
      · rw [Set.singleton_eq_singleton_iff.mp h]
        exact ⟨_, rfl⟩
    · rw [hsolution]
      have hnontrivial := hparametrizes.nontrivial hk
      refine ⟨⟨fun ⟨row, h⟩ => (by cases h), fun h => absurd h hnontrivial.nonempty.ne_empty⟩,
        fun others => ⟨fun ⟨_, h⟩ => (by cases h), fun h => ?_⟩,
        ⟨fun _ => hnontrivial, fun _ => ⟨_, _, rfl⟩⟩, fun _ _ h => ?_⟩
      · rw [h] at hnontrivial
        exact absurd hnontrivial Set.not_nontrivial_singleton
      · cases h
        refine ⟨k, A, hpresents _, hparametrizes, fun other hother => ?_⟩
        have hgeneral := ends_answer_general (M := M) (hpresents []) hother
        refine ⟨fun es => hgeneral.of_eq_ok, fun hpasses => ?_⟩
        obtain ⟨es, hes, -⟩ := (hgeneral.mono fun _ => not_lt.mpr hpasses).exists_ok
        exact ⟨es, hes⟩
  · obtain ⟨linear, hreads, hrow⟩ := hsolve row rfl
    rw [hreads.eq_empty hnodup hequations ρ hrow]
    refine ⟨⟨fun _ => rfl, fun _ => ⟨row, rfl⟩⟩, fun values => ⟨fun ⟨_, h⟩ => (by cases h), fun h => ?_⟩,
      ⟨fun ⟨_, _, h⟩ => (by cases h), fun h => ?_⟩, fun _ _ h => (by cases h)⟩
    · exact absurd h.symm (Set.singleton_ne_empty values)
    · exact absurd rfl h.nonempty.ne_empty

/-- The family `x = 4 - 2*t1`, `y = t1`. -/
def lineFamily : SolutionFamily where
  unknowns := ["x", "y"]
  particular := [.constant 4, .constant 0]
  parameters := ["t1"]
  basis := [[.constant (-2), .constant 1]]

/-- The unknowns as expressions in the parameter. -/
def lineSolution : List Expr :=
  [.add [.constant 4, .mul [.constant (-2), .symbol "t1"]], .symbol "t1"]

/-- What elimination finds out about `x + 2*y - 4 = 0`, given twice. -/
def lineDiagnostics : Diagnostics where
  rank := 1
  pivotRows := [0]
  pivotColumns := [0]
  freeColumns := [1]
  determinant := some 0
  equations := List.replicate 2 (.add [.constant (-4), .symbol "x", .mul [.constant 2, .symbol "y"]])

/-- The vectors with `x + 2*y - 4 = 0`, an equation given twice, are the points of the family given, whose
general solution is `4 - 2*t1` and `t1`. -/
theorem solveSystem_exact_line :
    ∃ (session later : Session) (handle : Handle), session.Reachable {} ∧
      session.pool.expr handle = .add [.symbol "x", .mul [.constant 2, .symbol "y"],
        .mul [.constant (-1), .constant 4]] ∧
      session.answer (solveSystem [handle, handle] ["x", "y"]) =
        (.ok (.family lineFamily, lineDiagnostics), later) ∧
      (session.answer (general lineFamily)).1 = .ok lineSolution ∧
      ∀ ρ : String → ℂ, ∃ (k : Nat) (A : AffineFamily 2 k),
        A.Presents ["x", "y"] lineFamily lineDiagnostics ∧
        A.Parametrizes
          (solutions complex ρ ["x", "y"] ([handle, handle].map session.pool.expr)) ∧
        A.GivenBy complex lineSolution := by
  have hread : Formula.read "x + 2*y - 4" = .ok (.add [.symbol "x", .mul [.constant 2, .symbol "y"],
      .mul [.constant (-1), .constant 4]]) := by cbv
  obtain ⟨handle, -, -, hexpr⟩ := parse_spec (new_consistent {}) hread
  have hreachable : ((new {}).after (.parse "x + 2*y - 4")).Reachable {} :=
    .after _ .new (by simp [Operation.handles, Pool.Has])
  have hmemo := memo_after_parse (new {}) "x + 2*y - 4"
  generalize (new {}).after (.parse "x + 2*y - 4") = session at hexpr hreachable hmemo
  have hpolynomial : ∀ e ∈ [handle, handle].map session.pool.expr, e.IsPolynomial := by
    have hline : (Expr.add [.symbol "x", .mul [.constant 2, .symbol "y"],
        .mul [.constant (-1), .constant 4]]).IsPolynomial :=
      .add (by simpa using ⟨.symbol "x", .mul (by simpa using ⟨.constant 2, .symbol "y"⟩),
        .mul (by simpa using ⟨.constant (-1), .constant 4⟩)⟩)
    simpa [hexpr] using hline
  have hsolve : ((ClosedForm.solveSystem {} ([handle, handle].map session.pool.expr) ["x", "y"]).run.run
      session.memo).1 = .ok (.family lineFamily, lineDiagnostics) := by
    rw [List.map_cons, List.map_cons, List.map_nil, hexpr, hmemo]
    cbv
  have hanswer : session.answer (solveSystem [handle, handle] ["x", "y"]) =
      (.ok (.family lineFamily, lineDiagnostics),
        (session.answer (solveSystem [handle, handle] ["x", "y"])).2) := by
    refine Prod.ext ?_ rfl
    rw [← hsolve]
    exact (solveSystem_performs hreachable.consistent [handle, handle] ["x", "y"]).outcome_eq
  have hgeneral : (session.answer (general lineFamily)).1 = .ok lineSolution := by
    have hrun : ((lineFamily.general {}).run.run session.memo).1 = .ok lineSolution := by
      rw [hmemo]
      cbv
    rw [← hrun]
    exact (general_performs hreachable.consistent lineFamily).outcome_eq
  refine ⟨session, _, handle, hreachable, hexpr, hanswer, hgeneral, fun ρ => ?_⟩
  obtain ⟨k, A, hpresents, hparametrizes, hwritten⟩ :=
    (solveSystem_exact hreachable hpolynomial (by decide) hanswer (.inl ⟨_, rfl⟩) ρ rfl).2.2.2 _ _ rfl
  exact ⟨k, A, hpresents, hparametrizes, (hwritten session hreachable).1 _ hgeneral⟩

/-- The points whose first coordinate is `0`. -/
def axisFamily : SolutionFamily where
  unknowns := ["x", "y"]
  particular := [.constant 0, .constant 0]
  parameters := ["t1"]
  basis := [[.constant 0, .constant 1]]

/-- One equation in two unknowns leaves the second one free. -/
def axisDiagnostics : Diagnostics where
  rank := 1
  pivotRows := [0]
  pivotColumns := [0]
  freeColumns := [1]
  determinant := none
  equations := [.symbol "x"]

/-- The equation `x = 0` in two unknowns has a family of solutions, but no general solution of it can be written
down in a single pass. -/
theorem exists_general_divergence :
    ∃ (session later : Session) (handle : Handle) (family : SolutionFamily) (diagnostics : Diagnostics),
      session.Reachable { maxPasses := 1 } ∧ session.pool.expr handle = .symbol "x" ∧
      session.answer (solveSystem [handle] ["x", "y"]) = (.ok (.family family, diagnostics), later) ∧
      later.Reachable { maxPasses := 1 } ∧
      (later.answer (general family)).1 = .error (.divergence 1) := by
  have hread : Formula.read "x" = .ok (.symbol "x") := by cbv
  obtain ⟨session, _, hsession, hmemo, - | @⟨_, handle, _, _, hhandle, -⟩⟩ :=
    exists_parsed_all { maxPasses := 1 } (.cons hread .nil)
  have hperforms := solveSystem_performs hsession.consistent [handle] ["x", "y"]
  rw [List.map_cons, List.map_nil, hhandle.2] at hperforms
  have hrun : ((ClosedForm.solveSystem { maxPasses := 1 } [.symbol "x"] ["x", "y"]).run.run
      session.memo).1 = .ok (.family axisFamily, axisDiagnostics) := by
    rw [hmemo]
    cbv
  obtain ⟨answer, later, hanswer, -, rfl⟩ := hperforms.of_ok hrun
  have hlater : later.Reachable { maxPasses := 1 } := by
    have hafter : session.after (.solveSystem [handle] ["x", "y"]) = later :=
      congrArg Prod.snd hanswer
    rw [← hafter]
    exact .after _ hsession (by simpa [Operation.handles, Pool.Has] using hhandle.1)
  refine ⟨session, later, handle, axisFamily, axisDiagnostics, hsession, hhandle.2, hanswer, hlater, ?_⟩
  have hlatermemo := hperforms.memo_eq
  rw [hanswer] at hlatermemo
  rw [(general_performs hlater.consistent axisFamily).outcome_eq, hlatermemo, hmemo]
  cbv

end Session

end ClosedForm
