import ClosedForm.Proofs.Value.Polynomials
import ClosedForm.Proofs.Solve.Elimination
import ClosedForm.Solve.System
import Mathlib.Algebra.BigOperators.Fin

/-!
# Reading linear equations

An expression that is accepted as a linear equation changes in proportion to each unknown
(`ensures_coefficient`), and so its value is the one the coefficients and the right-hand side give
(`ensures_linearEquation`): the constant term is found by another way, with all unknowns set to
zero, but there is only one that fits.

`Reads` says that an equation in canonical form and its linear equation have the same values.
-/

namespace ClosedForm

open ClosedForm.Expr
open Interpretation (Gives)

variable {K : Type*} [Field K] [CharZero K] {M : Interpretation K} {bounds : Bounds}

namespace Polynomial

/-- A polynomial with a coefficient at the first power only is proportional to the symbol. -/
theorem Has.proportional {name : String} {ts : List (Nat × Expr)} {f : (String → K) → K}
    (h : Has M name ts f) (hpowers : ∀ t ∈ ts, t.1 = 1) {c : Rat}
    (hc : (ts.lookup 1).getD .zero = .constant c) (σ : String → K) : f σ = c * σ name := by
  match ts with
  | [] =>
    obtain rfl : 0 = c := Expr.constant.inj hc
    rw [← Option.some.inj (h.value σ), Rat.cast_zero, zero_mul]
  | [(power, d)] =>
    obtain rfl : power = 1 := hpowers (power, d) (by simp)
    obtain ⟨g, r, hg, hr, hf⟩ := h.cons_inv
    obtain rfl : d = .constant c := by simpa using hc
    have hg := congrFun (hg.unique (Gives.constant c)) σ
    have hr : (0 : K) = r σ := Option.some.inj (hr.value σ)
    rw [hf σ, hg, ← hr, pow_one, add_zero]
  | s :: t :: rest =>
    have hlt := (List.pairwise_cons.mp h.ascending).1 t (by simp)
    rw [hpowers s (by simp), hpowers t (by simp)] at hlt
    exact absurd hlt (lt_irrefl 1)

/-- The value of a polynomial of degree at most one changes in proportion to the symbol. -/
theorem Has.affine {name : String} {ts : List (Nat × Expr)} {f : (String → K) → K}
    (h : Has M name ts f) (hdegree : ∀ t ∈ ts, t.1 ≤ 1) {c : Rat}
    (hc : (ts.lookup 1).getD .zero = .constant c) (σ : String → K) (y : K) :
    f (Function.update σ name y) = f σ + c * (y - σ name) := by
  by_cases hpowers : ∀ t ∈ ts, t.1 = 1
  · rw [h.proportional hpowers hc, h.proportional hpowers hc, Function.update_self]
    ring
  match ts with
  | [] => simp at hpowers
  | (power, d) :: rest =>
    obtain ⟨hlt, -⟩ := List.pairwise_cons.mp h.ascending
    have hzero : power = 0 := by
      by_contra hne
      refine hpowers (List.forall_mem_cons.mpr ⟨?_, fun t ht => ?_⟩)
      · have := hdegree (power, d) (by simp)
        dsimp only at this ⊢
        omega
      · have := hlt t ht
        have := hdegree t (by simp [ht])
        dsimp only at *
        omega
    subst hzero
    have hrest : ∀ t ∈ rest, t.1 = 1 := by
      intro t ht
      have := hlt t ht
      have := hdegree t (by simp [ht])
      dsimp only at *
      omega
    obtain ⟨g, r, hg, hr, hf⟩ := h.cons_inv
    have hfree : M.value (Function.update σ name y) d = M.value σ d := by
      refine Interpretation.value_congr fun other hother => ?_
      exact (Function.update_of_ne (h.free (0, d) (by simp) other hother) y σ).symm
    rw [hg, hg] at hfree
    rw [hf, hf, hr.proportional hrest hc, hr.proportional hrest hc, Option.some.inj hfree,
      Function.update_self]
    ring

end Polynomial

namespace LinearSystem

/-- The value changes in proportion to the unknown. -/
def Proportional (f : (String → K) → K) (unknown : String) (c : Rat) : Prop :=
  ∀ σ y, f (Function.update σ unknown y) = f σ + c * (y - σ unknown)

theorem ensures_coefficient {unknowns : List String} (number : Nat) {equation : Expr}
    (unknown : String) {f : (String → K) → K} (hf : M.Gives equation f) :
    Ensures bounds Error.IsRegular (Proportional f unknown)
      (coefficient bounds unknowns number equation unknown) := by
  refine .bind (.polynomialOfExpr equation unknown) (Polynomial.ensures_ofExpr hf) fun p hp => ?_
  have hregular (reason : NonPolynomial) : Error.IsRegular (.nonPolynomial unknown reason) :=
    fun row => by simp
  dsimp only
  split
  · exact fun memo hmemo => hregular _
  · next hdegree =>
    split
    · exact fun memo hmemo => hregular _
    · split
      · next value hvalue =>
        exact .pure fun σ y => hp.affine (Polynomial.le_of_degree hp.ascending (not_lt.mp hdegree))
          (constant?_eq_some.mp hvalue) σ y
      · exact .throw fun row => by simp

/-- The assignment with the unknowns set to zero. -/
def zeroOn (unknowns : List String) (σ : String → K) (name : String) : K :=
  if name ∈ unknowns then 0 else σ name

omit [CharZero K] in
/-- Setting the unknowns to zero one after another takes away what each contributes. -/
theorem eq_add_sum {f : (String → K) → K} {unknowns : List String} {coefficients : List Rat}
    (h : List.Forall₂ (Proportional f) unknowns coefficients) (hnodup : unknowns.Nodup)
    (σ : String → K) :
    f σ = f (zeroOn unknowns σ) +
      ∑ j : Fin unknowns.length, (coefficients.getD j 0 : K) * σ unknowns[j] := by
  induction h generalizing σ with
  | nil =>
    have hzero : zeroOn [] σ = σ := funext fun name => by simp [zeroOn]
    simp [hzero]
  | @cons x c xs cs hx _ ih =>
    obtain ⟨hnot, hnodup⟩ := List.nodup_cons.mp hnodup
    have hzero : zeroOn xs (Function.update σ x 0) = zeroOn (x :: xs) σ := by
      funext name
      by_cases hname : name = x
      · subst hname
        simp [zeroOn, hnot]
      · simp [zeroOn, hname]
    have hsum : ∑ j : Fin xs.length, (cs.getD j 0 : K) * Function.update σ x 0 xs[j] =
        ∑ j : Fin xs.length, (cs.getD j 0 : K) * σ xs[j] := by
      refine Finset.sum_congr rfl fun j _ => ?_
      rw [Function.update_of_ne]
      rintro heq
      exact hnot (heq ▸ List.getElem_mem _)
    have hstep := hx σ 0
    rw [ih hnodup, hzero, hsum, zero_sub] at hstep
    have hsplit : ∑ j : Fin (xs.length + 1), ((c :: cs).getD j 0 : K) * σ (x :: xs)[j] =
        c * σ x + ∑ j : Fin xs.length, (cs.getD j 0 : K) * σ xs[j] :=
      Fin.sum_univ_succ _
    refine Eq.trans ?_ (congrArg (f (zeroOn (x :: xs) σ) + ·) hsplit.symm)
    linear_combination -hstep

/-- Replacing the unknowns by zero is to set them to zero. -/
theorem gives_replaceSymbols_zero {e : Expr} {f : (String → K) → K} (hf : M.Gives e f)
    (unknowns : List String) :
    M.Gives (e.replaceSymbols (unknowns.map fun name => (name, .zero)))
      fun σ => f (zeroOn unknowns σ) := by
  intro σ
  rw [← hf]
  refine Interpretation.value_replaceSymbols fun name _ => ?_
  have hlookup : (unknowns.map fun name => (name, Expr.zero)).lookup name =
      if name ∈ unknowns then some .zero else none := by
    induction unknowns with
    | nil => rfl
    | cons x xs ih =>
      by_cases hname : name = x
      · simp [hname]
      · simp [List.lookup_cons, beq_eq_false_iff_ne.mpr hname, ih, hname]
  show M.value σ (boundTo _ name) = some (zeroOn unknowns σ name)
  unfold boundTo zeroOn
  rw [hlookup]
  split
  · exact Interpretation.value_zero
  · rw [Option.getD_none, Interpretation.value]

/-- The equation has the coefficients and the right-hand side that its value shows. -/
structure Reads (unknowns : List String) (f : (String → K) → K) (equation : LinearEquation) : Prop where
  length : equation.coefficients.length = unknowns.length
  value : ∀ σ, f σ = (∑ j : Fin unknowns.length, (equation.coefficientAt j : K) * σ unknowns[j]) -
    equation.value

theorem ensures_linearEquation {unknowns : List String} (hnodup : unknowns.Nodup) (number : Nat)
    {equation : Expr} {f : (String → K) → K} (hf : M.Gives equation f) :
    Ensures bounds Error.IsRegular (Reads unknowns f)
      (linearEquation bounds unknowns number equation) := by
  refine .bind (.mapM fun unknown => .coefficient unknowns number equation unknown)
    (.mapM (fun unknown => .coefficient unknowns number equation unknown)
      fun unknown _ => ensures_coefficient number unknown hf) fun coefficients hcoefficients => ?_
  refine .bind (.substituteAll _ _) (.canonicalize (gives_replaceSymbols_zero hf unknowns))
    fun rest hrest => ?_
  split
  · next value hvalue =>
    refine .pure ⟨hcoefficients.length_eq.symm, fun σ => ?_⟩
    have hconstant : rest = .constant value := by
      cases rest <;> cases hvalue
      rfl
    have hzero := congrFun (hrest.1.unique (hconstant ▸ Gives.constant value)) σ
    rw [eq_add_sum hcoefficients hnodup σ, hzero]
    show (value : K) + _ = _ - ((-value : Rat) : K)
    rw [Rat.cast_neg, sub_neg_eq_add, add_comm]
    rfl
  · exact .throw fun row => by simp

/-- Equations with the linear equations that they are read as. -/
def ReadsAll (M : Interpretation K) (unknowns : List String) (equations : List Expr)
    (linear : List (Expr × LinearEquation)) : Prop :=
  List.Forall₂ (fun e l => ∀ f, M.Gives e f → Reads unknowns f l.2) equations linear

theorem ensures_linearEquations {unknowns : List String} (hnodup : unknowns.Nodup)
    {equations : List Expr} (hequations : ∀ e ∈ equations, ∃ f, M.Gives e f) :
    Ensures bounds Error.IsRegular (ReadsAll M unknowns equations)
      (linearEquations bounds unknowns equations) := by
  have hmapM : Ensures bounds Error.IsRegular
      (List.Forall₂ (fun (t : Expr × Nat) (l : Expr × LinearEquation) =>
        ∀ f, M.Gives t.1 f → Reads unknowns f l.2) equations.zipIdx)
      (linearEquations bounds unknowns equations) := by
    refine .mapM (fun t => ?_) fun t ht => ?_
    · exact (Recording.canonicalize t.1).bind fun canonical =>
        (Recording.linearEquation unknowns (t.2 + 1) canonical).bind fun _ => .pure _
    · obtain ⟨f, hf⟩ := hequations t.1 (List.fst_mem_of_mem_zipIdx ht)
      refine .bind (.canonicalize t.1) (.canonicalize hf) fun canonical hcanonical => ?_
      refine .bind (.linearEquation _ _ _) (ensures_linearEquation hnodup _ hcanonical.1)
        fun equation hequation => .pure fun g hg => ?_
      exact hf.unique hg ▸ hequation
  intro memo hmemo
  refine (hmapM memo hmemo).imp fun linear hlinear => ?_
  have hfst : equations.zipIdx.map Prod.fst = equations := by simp
  rw [← hfst, ReadsAll]
  exact List.forall₂_map_left_iff.mpr hlinear

end LinearSystem

end ClosedForm
