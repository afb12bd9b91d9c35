import ClosedForm.Proofs.Recall
import ClosedForm.Proofs.Repetition
import ClosedForm.Proofs.Solve.Determinant
import ClosedForm.Proofs.Solve.Systems

/-!
# The determinant of a system

The matrix of a system has the coefficient of the unknown `j` in the equation `i` at `i`, `j`. It can be
read again at any time, as the coefficient of the first power in the polynomial of the equation in the
unknown, and the value of the equation changes with the unknown in proportion to it
(`LinearSystem.ReadsCoefficient`).

Where there are as many equations as unknowns, an answer of `solveSystem` has the determinant of this
matrix, and there is a single solution exactly if it is not zero. Otherwise it has none
(`Session.solveSystem_determinant`).
-/

namespace ClosedForm

open ClosedForm.Expr
open Interpretation (Gives)

variable {K : Type*} [Field K] [CharZero K] {M : Interpretation K} {bounds : Bounds}

/-- What a computation ensures of its result holds of it at any later time. -/
theorem Leaves.and_ensures {α : Type} {ι : Type*} {action : Memoizing α} {property : α → Memo → Prop}
    {failure : Error → Prop} {condition : ι → Prop} {success : ι → α → Prop}
    (h : Leaves bounds property action)
    (hensures : ∀ i, condition i → Ensures bounds failure (success i) action) :
    Leaves bounds (fun a memo => property a memo ∧ ∀ i, condition i → success i a) action := by
  intro memo hmemo a later hrun
  obtain ⟨hgrows, hproperty⟩ := h memo hmemo a later hrun
  refine ⟨hgrows, fun last hlast => ⟨hproperty last hlast, fun i hi => ?_⟩⟩
  have hends := hensures i hi memo hmemo
  rwa [hrun] at hends

namespace LinearSystem

/-! ## Coefficients -/

/-- The number is the coefficient of the unknown in the expression: as it is read with the memo, and by
the values of the expression. -/
structure ReadsCoefficient (M : Interpretation K) (bounds : Bounds) (memo : Memo) (e : Expr)
    (unknown : String) (c : Rat) : Prop where
  read : ∃ p, (Polynomial.ofExpr bounds e unknown).run.run memo = (.ok p, memo) ∧
    p.coefficient 1 = .constant c
  proportional : ∀ f, M.Gives e f → Proportional f unknown c

variable {unknowns : List String} {number : Nat}

theorem leaves_coefficient (equation : Expr) (unknown : String) :
    Leaves bounds (fun c memo => ReadsCoefficient M bounds memo equation unknown c)
      (coefficient bounds unknowns number equation unknown) := by
  have hread : Leaves bounds (fun c memo => ∃ p,
      (Polynomial.ofExpr bounds equation unknown).run.run memo = (.ok p, memo) ∧
        p.coefficient 1 = .constant c) (coefficient bounds unknowns number equation unknown) := by
    refine .bind (Repeatable.polynomialOfExpr equation unknown) fun p => ?_
    dsimp only
    split
    · exact .throw_bind _
    · split
      · exact .throw_bind _
      · split
        · next value hvalue =>
          exact .pure fun memo hrun => ⟨p, hrun, constant?_eq_some.mp hvalue⟩
        · exact .throw _
  have hboth := hread.and_ensures (fun f (hf : M.Gives equation f) =>
    ensures_coefficient number unknown hf)
  exact hboth.imp fun c memo h => ⟨h.1, h.2⟩

/-- The numbers are the coefficients of the unknowns. -/
def ReadsRow (M : Interpretation K) (bounds : Bounds) (memo : Memo) (unknowns : List String) (e : Expr)
    (row : LinearEquation) : Prop :=
  List.Forall₂ (ReadsCoefficient M bounds memo e) unknowns row.coefficients

theorem leaves_linearEquation (equation : Expr) :
    Leaves bounds (fun row memo => ReadsRow M bounds memo unknowns equation row)
      (linearEquation bounds unknowns number equation) := by
  refine .bind (.mapM fun unknown _ => leaves_coefficient (M := M) equation unknown) fun coefficients => ?_
  refine .bind (.of_recording (.substituteAll _ _)) fun rest => ?_
  split
  · exact .pure fun memo _ hcoefficients => hcoefficients
  · exact .throw _

/-- The coefficients of the canonical form are those of the equation. -/
theorem ReadsCoefficient.of_canonical {memo : Memo} {e c : Expr} {unknown : String} {q : Rat}
    (he : memo.find? e = some c) (hc : memo.find? c = some c) (hvalue : ∀ f, M.Gives e f → M.Gives c f)
    (h : ReadsCoefficient M bounds memo c unknown q) : ReadsCoefficient M bounds memo e unknown q where
  read := by
    rw [Polynomial.run_ofExpr_of_find? he hc]
    exact h.read
  proportional f hf := h.proportional f (hvalue f hf)

/-- It is read again at any later time. -/
theorem ReadsCoefficient.mono {memo later : Memo} {e : Expr} {unknown : String} {c : Rat}
    (hmemo : memo.Reachable bounds) (h : ReadsCoefficient M bounds memo e unknown c)
    (hgrows : memo.Grows bounds later) : ReadsCoefficient M bounds later e unknown c where
  read := by
    obtain ⟨p, hrun, hp⟩ := h.read
    exact ⟨p, (Repeatable.polynomialOfExpr e unknown memo hmemo p memo hrun).2 later hgrows, hp⟩
  proportional := h.proportional

theorem leaves_linearEquations (equations : List Expr) :
    Leaves bounds (fun linear memo => List.Forall₂
        (fun e (l : Expr × LinearEquation) => ReadsRow M bounds memo unknowns e l.2) equations linear)
      (linearEquations bounds unknowns equations) := by
  have hmapM : Leaves bounds (fun linear memo => List.Forall₂
      (fun (t : Expr × Nat) (l : Expr × LinearEquation) => ReadsRow M bounds memo unknowns t.1 l.2)
        equations.zipIdx linear) (linearEquations bounds unknowns equations) := by
    refine .mapM fun t _ => ?_
    refine .bind ((Leaves.canonicalize t.1).and_ensures fun f (hf : M.Gives t.1 f) =>
      .canonicalize hf) fun canonical => ?_
    refine .bind (leaves_linearEquation (M := M) canonical) fun equation => .pure fun memo hrow hcanonical => ?_
    exact hrow.imp fun unknown c h =>
      h.of_canonical hcanonical.1.1 hcanonical.1.2 fun f hf => (hcanonical.2 f hf).1
  refine hmapM.imp fun linear memo h => ?_
  have hfst : equations.zipIdx.map Prod.fst = equations := by simp
  rw [← hfst]
  exact List.forall₂_map_left_iff.mpr h

/-- An answer is read off the end of elimination on rows with the coefficients of the equations. -/
theorem leaves_solveSystem (equations : List Expr) (unknowns : List String) :
    Leaves bounds (fun answer memo => ∃ linear : List (Expr × LinearEquation),
        List.Forall₂ (fun e l => ReadsRow M bounds memo unknowns e l.2) equations linear ∧
        answer = (solution (Elimination.run unknowns.length (linear.map Prod.snd)) unknowns,
          diagnostics (Elimination.run unknowns.length (linear.map Prod.snd)) unknowns.length
            (linear.map Prod.fst)))
      (solveSystem bounds equations unknowns) := by
  refine .bind (leaves_linearEquations (M := M) equations) fun linear => ?_
  dsimp only
  split
  · exact .throw _
  · exact .pure fun memo hrows => ⟨linear, hrows, rfl⟩

/-- A matrix of coefficients, with their values for whoever asks. -/
theorem readsCoefficient_matrix {memo : Memo} {equations : List Expr}
    {linear : List (Expr × LinearEquation)}
    (h : List.Forall₂ (fun e l => ReadsRow M bounds memo unknowns e l.2) equations linear)
    {n : Nat} (hequations : equations.length = n) (hunknowns : unknowns.length = n) (i j : Fin n) :
    ReadsCoefficient M bounds memo (equations.get (i.cast hequations.symm))
      (unknowns.get (j.cast hunknowns.symm))
      (LinearEquation.matrix n (linear.map Prod.snd) i j) := by
  have hi : i.val < equations.length := hequations ▸ i.2
  have hj : j.val < unknowns.length := hunknowns ▸ j.2
  have hi' : i.val < linear.length := h.length_eq ▸ hi
  have hrow : List.Forall₂ _ _ _ := h.get hi hi'
  have hj' : j.val < linear[i.val].2.coefficients.length := hrow.length_eq ▸ hj
  have hentry : LinearEquation.matrix n (linear.map Prod.snd) i j =
      linear[i.val].2.coefficients[j.val] := by
    simp [LinearEquation.matrix, LinearEquation.coefficientAt, hi', hj']
  rw [hentry]
  exact hrow.get hj hj'

end LinearSystem

namespace Session

open LinearSystem

/-- The determinant that is reported for a system, if the numbers of equations and unknowns agree, is
the one of the coefficients, and it is zero unless there is a single solution. -/
theorem solveSystem_determinant {session later : Session} (hsession : session.Reachable bounds)
    {equations : List Handle} (hhandles : session.pool.Has equations) {unknowns : List String}
    {result : SystemSolution} {found : Diagnostics}
    (hanswer : session.answer (solveSystem equations unknowns) = (.ok (result, found), later)) :
    (equations.length ≠ unknowns.length → found.determinant = none) ∧
    ∀ (n : Nat) (hequations : equations.length = n) (hunknowns : unknowns.length = n),
      ∃ A : Matrix (Fin n) (Fin n) ℚ,
        (∀ i j : Fin n, let equation := equations.get (i.cast hequations.symm)
          let unknown := unknowns.get (j.cast hunknowns.symm)
          (∀ next, later.Leads next → ∃ p, (next.answer (polynomial equation unknown)).1 = .ok p ∧
            p.coefficient 1 = .constant (A i j)) ∧
          ∀ f, M.Gives (session.pool.expr equation) f → ∀ σ y,
            f (Function.update σ unknown y) = f σ + A i j * (y - σ unknown)) ∧
        found.determinant = some A.det ∧ (A.det ≠ 0 ↔ ∃ solution, result = .unique solution) := by
  have hconsistent := hsession.consistent
  have hrun : (ClosedForm.solveSystem bounds (equations.map session.pool.expr) unknowns).run.run
      session.memo = (.ok (result, found), later.memo) :=
    (solveSystem_performs hconsistent equations unknowns).run_eq hanswer
  obtain ⟨-, hleaves⟩ := leaves_solveSystem (M := M) _ unknowns session.memo hconsistent.memo _ _ hrun
  have hleads : session.Leads later := by
    have hafter : session.Leads (session.answer (solveSystem equations unknowns)).2 :=
      .after (.solveSystem equations unknowns) .refl hhandles
    rwa [hanswer] at hafter
  have hlater := hsession.leads hleads
  obtain ⟨linear, hrows, heq⟩ := hleaves later.memo .refl
  have hlength : linear.length = equations.length := by
    rw [← hrows.length_eq, List.length_map]
  cases heq
  refine ⟨fun hne => if_neg (by rwa [List.length_map, hlength]), fun n hequations hunknowns => ?_⟩
  have hsized : ∀ row ∈ linear.map Prod.snd,
      row.coefficients.length = (linear.map Prod.snd).length := by
    rw [List.forall_mem_map, List.length_map]
    intro l hl
    obtain ⟨e, -, hrow⟩ := exists_of_forall₂_right hrows hl
    rw [← hrow.length_eq, hlength, hequations, hunknowns]
  obtain rfl : (linear.map Prod.snd).length = n := by rw [List.length_map, hlength, hequations]
  have hcoefficient (i j : Fin (linear.map Prod.snd).length) :
      ReadsCoefficient M bounds later.memo
        (session.pool.expr (equations.get (i.cast hequations.symm)))
        (unknowns.get (j.cast hunknowns.symm))
        (LinearEquation.matrix _ (linear.map Prod.snd) i j) := by
    simpa using readsCoefficient_matrix hrows (by simpa using hequations) hunknowns i j
  refine ⟨LinearEquation.matrix _ (linear.map Prod.snd),
    fun i j => ⟨fun next hnext => ?_, (hcoefficient i j).proportional⟩, ?_, ?_⟩
  · obtain ⟨p, hp, hc⟩ := ((hcoefficient i j).mono hlater.consistent.memo (hnext.grows hlater)).read
    have hconsistent' := (hlater.leads hnext).consistent
    have hexpr := ((hleads.trans hnext).extends hsession).expr_eq hconsistent.pool hconsistent'.pool
      (hhandles _ (List.get_mem equations (i.cast hequations.symm)))
    have hrun : (next.answer (polynomial (equations.get (i.cast hequations.symm))
        (unknowns.get (j.cast hunknowns.symm)))).1 = ((Polynomial.ofExpr bounds (next.pool.expr
          (equations.get (i.cast hequations.symm))) (unknowns.get (j.cast hunknowns.symm))).run.run
            next.memo).1 :=
      (polynomial_performs hconsistent' _ _).outcome_eq
    rw [hexpr, hp] at hrun
    exact ⟨p, hrun, hc⟩
  · rw [Elimination.det_eq hsized rfl, ← hunknowns]
    exact if_pos (by rw [List.length_map, hlength, hequations, hunknowns])
  · rw [Elimination.det_ne_zero_iff hsized, ← hunknowns]
    unfold solution
    dsimp only
    split
    · next hrank => exact ⟨fun _ => ⟨_, rfl⟩, fun _ => hrank⟩
    · next hrank => exact ⟨fun h => absurd h hrank, fun ⟨_, h⟩ => by cases h⟩

/-- What elimination finds out about `y - 1 = 0` and `x - 2 = 0`, which it exchanges. -/
def exchangedDiagnostics : Diagnostics where
  rank := 2
  pivotRows := [0, 1]
  pivotColumns := [0, 1]
  freeColumns := []
  determinant := some (-1)
  equations := [.add [.constant (-1), .symbol "y"], .add [.constant (-2), .symbol "x"]]

/-- The coefficients of `y - 1` and `x - 2` at `x` and `y` have the determinant `-1`. -/
theorem solveSystem_determinant_exchanged :
    ∃ (session later : Session) (first second : Handle), session.Reachable {} ∧
      session.pool.expr first = .add [.symbol "y", .mul [.constant (-1), .constant 1]] ∧
      session.pool.expr second = .add [.symbol "x", .mul [.constant (-1), .constant 2]] ∧
      session.answer (solveSystem [first, second] ["x", "y"]) =
        (.ok (.unique ⟨["x", "y"], [.constant 2, .constant 1]⟩, exchangedDiagnostics), later) ∧
      ∃ A : Matrix (Fin 2) (Fin 2) ℚ, A.det = -1 ∧ ∀ i j, ∃ p,
        (later.answer (polynomial ([first, second].get i) (["x", "y"].get j))).1 = .ok p ∧
          p.coefficient 1 = .constant (A i j) := by
  have hread : List.Forall₂ (fun text e => Formula.read text = .ok e) ["y - 1", "x - 2"]
      [.add [.symbol "y", .mul [.constant (-1), .constant 1]],
        .add [.symbol "x", .mul [.constant (-1), .constant 2]]] :=
    .cons (by cbv) (.cons (by cbv) .nil)
  obtain ⟨session, handles, hsession, hmemo, - | @⟨_, first, _, _, hfirst, - | @⟨_, second, _, _, hsecond,
    -⟩⟩⟩ := exists_parsed_all {} hread
  have hsolve : ((ClosedForm.solveSystem {} ([first, second].map session.pool.expr) ["x", "y"]).run.run
      session.memo).1 =
        .ok (.unique ⟨["x", "y"], [.constant 2, .constant 1]⟩, exchangedDiagnostics) := by
    rw [List.map_cons, List.map_cons, List.map_nil, hfirst.2, hsecond.2, hmemo]
    cbv
  have hanswer : session.answer (solveSystem [first, second] ["x", "y"]) =
      (.ok (.unique ⟨["x", "y"], [.constant 2, .constant 1]⟩, exchangedDiagnostics),
        (session.answer (solveSystem [first, second] ["x", "y"])).2) := by
    refine Prod.ext ?_ rfl
    rw [← hsolve]
    exact (solveSystem_performs hsession.consistent [first, second] ["x", "y"]).outcome_eq
  obtain ⟨-, hsquare⟩ := solveSystem_determinant (M := Interpretation.complex) hsession
    (by simpa [Pool.Has] using ⟨hfirst.1, hsecond.1⟩) hanswer
  obtain ⟨A, hA, hdet, -⟩ := hsquare 2 rfl rfl
  exact ⟨session, _, first, second, hsession, hfirst.2, hsecond.2, hanswer, A,
    (Option.some.inj hdet).symm, fun i j => (hA i j).1 _ .refl⟩

end Session

end ClosedForm
