import ClosedForm.Proofs.Ring.Coefficients
import ClosedForm.Proofs.Solve.Radicals
import ClosedForm.Proofs.Value.Polynomials
import Mathlib.Algebra.Polynomial.BigOperators
import Mathlib.RingTheory.Polynomial.SmallDegreeVieta

/-!
# Equations with rational coefficients

A polynomial with rational coefficients is one over the rationals (`Polynomial.overRationals`), with
the same coefficients and the same degree (`Polynomial.Represents`). Up to degree two it is solved
completely (`Session.solve_rational`): where it has a rational root the solutions are its roots as
numbers in ascending order (`Solve.FactorsAs`), and where it has none they are written with a square
root and are no numbers (`Solve.ensures_symbolicRoots`).
-/

open Polynomial (C X)
open scoped Polynomial

namespace ClosedForm

open ClosedForm.Expr Canonical

namespace Solve

/-! ## Rational roots -/

/-- Numbers in ascending order, with multiplicities, are the roots of a polynomial and factor it. -/
structure FactorsAs (f : ℚ[X]) (rs : List (Rat × Nat)) : Prop where
  ascending : rs.Pairwise fun r s => r.1 < s.1
  isRoot : ∀ q, f.IsRoot q ↔ q ∈ rs.map Prod.fst
  product : f = C f.leadingCoeff * (rs.map fun r => (X - C r.1) ^ r.2).prod

/-- Numbers with multiplicities as solutions. -/
def asRoots (rs : List (Rat × Nat)) : List Root :=
  rs.map fun r => ⟨.constant r.1, r.2⟩

theorem isRoot_iff_of_product {f : ℚ[X]} {a p q : Rat} (ha : a ≠ 0)
    (h : f = C a * ((X - C p) * (X - C q))) (x : Rat) : f.IsRoot x ↔ x = p ∨ x = q := by
  rw [h, Polynomial.IsRoot.def]
  simp [ha, sub_eq_zero]

theorem coeff_natDegree_ne_zero {K : Type*} [Field K] {f : K[X]} {n : ℕ} (hn : n ≠ 0)
    (h : f.natDegree = n) : f.coeff n ≠ 0 := by
  rw [← h, Polynomial.coeff_natDegree, Polynomial.leadingCoeff_ne_zero]
  rintro rfl
  exact hn h.symm

/-- A quadratic over a field with a root of its discriminant factors. -/
theorem quadratic_eq_product {K : Type*} [Field K] [CharZero K] {f : K[X]} (hdegree : f.natDegree = 2)
    {a b c r : K} (ha : f.coeff 2 = a) (hb : f.coeff 1 = b) (hc : f.coeff 0 = c) (hne : a ≠ 0)
    (hr : r * r = b * b - 4 * a * c) :
    f = C a * ((X - C ((-b - r) / (2 * a))) * (X - C ((-b + r) / (2 * a)))) := by
  have hsum : b = -(a * ((-b - r) / (2 * a) + (-b + r) / (2 * a))) := by
    field_simp
    ring
  have hproduct : c = a * ((-b - r) / (2 * a) * ((-b + r) / (2 * a))) := by
    field_simp
    linear_combination hr
  have hquadratic := Polynomial.eq_quadratic_of_degree_le_two
    (Polynomial.natDegree_le_iff_degree_le.mp hdegree.le)
  rw [ha, hb, hc] at hquadratic
  rw [hquadratic]
  generalize (-b - r) / (2 * a) = p at *
  generalize (-b + r) / (2 * a) = q at *
  rw [hsum, hproduct]
  simp only [map_mul, map_add, map_neg]
  ring

/-- Rational roots that are found are the roots. -/
theorem exists_factorsAs {f : ℚ[X]} (hdegree : f.natDegree = 2) {roots : List Root}
    (h : rationalRoots? (f.coeff 2) (f.coeff 1) (f.coeff 0) = some roots) :
    ∃ rs, FactorsAs f rs ∧ (rs.map Prod.snd).sum = 2 ∧ roots = asRoots rs := by
  obtain ⟨r, hr, hroots⟩ := Option.map_eq_some_iff.mp h
  obtain ⟨hnonneg, hsquare⟩ := Rational.sqrt?_eq_some.mp hr
  have hleading : f.leadingCoeff = f.coeff 2 := by rw [Polynomial.leadingCoeff, hdegree]
  have hne := coeff_natDegree_ne_zero two_ne_zero hdegree
  have hproduct := quadratic_eq_product hdegree rfl rfl rfl hne hsquare
  have hdistinct : (-f.coeff 1 - r) / (2 * f.coeff 2) = (-f.coeff 1 + r) / (2 * f.coeff 2) →
      r = 0 := by
    intro heq
    rw [div_left_inj' (mul_ne_zero two_ne_zero hne)] at heq
    linarith
  have hsame : r = 0 → (-f.coeff 1 + r) / (2 * f.coeff 2) = (-f.coeff 1 - r) / (2 * f.coeff 2) := by
    rintro rfl
    rw [add_zero, sub_zero]
  have hmem := isRoot_iff_of_product hne hproduct
  dsimp only at hroots
  generalize (-f.coeff 1 - r) / (2 * f.coeff 2) = first at *
  generalize (-f.coeff 1 + r) / (2 * f.coeff 2) = second at *
  rw [← hleading] at hproduct
  split at hroots
  · next hzero =>
    rw [hsame hzero] at hmem hproduct
    refine ⟨[(first, 2)], ⟨by simp, ?_, ?_⟩, rfl, hroots.symm⟩
    · simpa using hmem
    · simpa [pow_two] using hproduct
  · next hzero =>
    split at hroots
    · next hle =>
      refine ⟨[(first, 1), (second, 1)], ⟨?_, ?_, ?_⟩, rfl, hroots.symm⟩
      · simpa using lt_of_le_of_ne hle fun heq => hzero (hdistinct heq)
      · simpa using hmem
      · simpa using hproduct
    · next hlt =>
      refine ⟨[(second, 1), (first, 1)], ⟨?_, ?_, ?_⟩, rfl, hroots.symm⟩
      · simpa using hlt
      · simpa [or_comm] using hmem
      · simpa [mul_comm (X - C second)] using hproduct

/-- Where no rational roots are found there are none. -/
theorem not_isRoot_of_rationalRoots? {f : ℚ[X]} (hdegree : f.natDegree = 2)
    (h : rationalRoots? (f.coeff 2) (f.coeff 1) (f.coeff 0) = none) (q : Rat) : ¬ f.IsRoot q := by
  intro hroot
  have hquadratic := Polynomial.eq_quadratic_of_degree_le_two
    (Polynomial.natDegree_le_iff_degree_le.mp hdegree.le)
  rw [hquadratic, Polynomial.IsRoot.def] at hroot
  simp only [Polynomial.eval_add, Polynomial.eval_mul, Polynomial.eval_C, Polynomial.eval_pow,
    Polynomial.eval_X] at hroot
  have hsquare : f.coeff 1 * f.coeff 1 - 4 * f.coeff 2 * f.coeff 0 =
      (2 * f.coeff 2 * q + f.coeff 1) * (2 * f.coeff 2 * q + f.coeff 1) := by
    linear_combination -4 * f.coeff 2 * hroot
  obtain ⟨r, hr⟩ := Rational.exists_sqrt?_mul_self (2 * f.coeff 2 * q + f.coeff 1)
  rw [← hsquare] at hr
  cases (Option.map_eq_none_iff.mp h).symm.trans hr

/-! ## Irrational roots -/

variable {bounds : Bounds}

theorem reduces_discriminant (hrange : bounds.InRange) (hlimit : 2 ≤ bounds.maxExactExponent)
    (a b c : Rat) :
    Reduces bounds (.add [.pow (.constant b) (.integer 2),
      .mul [.integer (-4), .constant a, .constant c]]) (.constant (b * b - 4 * a * c)) := by
  have hsquare : Reduces bounds (.pow (.constant b) (.integer 2)) (.constant (b ^ 2)) :=
    .pow (Reduces.constant _) (Reduces.constant _) (power_constant hrange b hlimit) (.constant _)
  have hproduct : Reduces bounds (.mul [.integer (-4), .constant a, .constant c])
      (.constant [((-4 : Int) : Rat), a, c].prod) :=
    .mul_constants (.cons (Reduces.constant _) (.cons (Reduces.constant _)
      (.cons (Reduces.constant _) .nil)))
  have hsum := Reduces.add_constants (.cons hsquare (.cons hproduct .nil))
  have hvalue : [b ^ 2, [((-4 : Int) : Rat), a, c].prod].sum = b * b - 4 * a * c := by
    simp
    ring
  rwa [hvalue] at hsum

/-- A discriminant with a rational root in the formula is a square. -/
theorem exists_sqrt?_of_root {a b d q : Rat} {w : ℂ} (ha : a ≠ 0) (hsquare : w ^ 2 = (d : ℂ))
    (hq : (q : ℂ) = (-b + w) / (2 * a)) : ∃ r, Rational.sqrt? d = some r := by
  have hw : w = ((2 * a * q + b : Rat) : ℂ) := by
    rw [eq_div_iff (by simpa using ha)] at hq
    push_cast
    linear_combination -hq
  have hd : d = (2 * a * q + b) * (2 * a * q + b) := by
    rw [hw, pow_two] at hsquare
    exact_mod_cast hsquare.symm
  rw [hd]
  exact Rational.exists_sqrt?_mul_self _

theorem value_twice {K : Type*} [Field K] [CharZero K] {M : Interpretation K} {σ : String → K} {e : Expr}
    {x : K} (h : M.value σ e = some x) : M.value σ (.mul [.integer 2, e]) = some (2 * x) := by
  simp [integer, Interpretation.value, Interpretation.productValue, h]

/-- The value of the formula for the roots, with a square root `t` that has a value. -/
theorem value_root {K : Type*} [Field K] [CharZero K] {M : Interpretation K} {σ : String → K}
    {a b t : Expr} {x y w : K} (ha : M.value σ a = some x) (hx : x ≠ 0) (hb : M.value σ b = some y)
    (ht : M.value σ t = some w) :
    M.value σ (.div (.add [.neg b, t]) (.mul [.integer 2, a])) = some ((-y + w) / (2 * x)) := by
  have hsum : M.value σ (.add [.neg b, t]) = some (-y + w) := by
    simp [Interpretation.value, Interpretation.sumValue, Interpretation.value_neg hb, ht]
  exact Interpretation.value_div hsum (value_twice ha) (mul_ne_zero two_ne_zero hx)

/-- The quotient in the formula for the roots has a canonical form that is no constant, if it has the
square root of a discriminant that is no square. -/
theorem exists_root {a b d : Rat} (ha : a ≠ 0) (hd : Rational.sqrt? d = none)
    (hlimit : 1 ≤ bounds.maxExactExponent) {t s : Expr} (ht : Reduces bounds t s) {w : ℂ}
    (hw : Interpretation.complex.value (fun _ => 0) t = some w) (hsquare : w ^ 2 = (d : ℂ)) :
    ∃ r, Reduces bounds (.div (.add [.neg (.constant b), t]) (.mul [.integer 2, .constant a])) r ∧
      r.constant? = none := by
  have htwice : Reduces bounds (.mul [.integer 2, .constant a])
      (.constant [((2 : Int) : Rat), a].prod) :=
    .mul_constants (.cons (Reduces.constant _) (.cons (Reduces.constant _) .nil))
  have hne : [((2 : Int) : Rat), a].prod ≠ 0 := by simpa using ha
  have hnumerator : Reduces bounds (.add [.neg (.constant b), t]) _ :=
    .add (.cons (reduces_neg b) (.cons ht .nil))
  obtain ⟨r, hrule, hr⟩ := exists_multiply_constant hnumerator.normal (one_div_ne_zero hne)
  have hroot : Reduces bounds
      (.div (.add [.neg (.constant b), t]) (.mul [.integer 2, .constant a])) r :=
    .mul (.cons hnumerator (.cons (htwice.inverse hne hlimit) .nil)) hrule hr
  refine ⟨r, hroot, ?_⟩
  cases hconstant : r.constant? with
  | none => rfl
  | some q =>
    -- The number would be a root, and the discriminant the square of a number.
    obtain rfl := constant?_eq_some.mp hconstant
    have hvalue := value_root (Interpretation.value_constant a) (Rat.cast_ne_zero.mpr ha)
      (Interpretation.value_constant b) hw
    have hq := (Interpretation.value_constant q).symm.trans (hroot.value hvalue)
    obtain ⟨r, hr⟩ := exists_sqrt?_of_root ha hsquare (Option.some.inj hq)
    cases hd.symm.trans hr

/-- Where the discriminant is no square, the formula gives two solutions that are no numbers. -/
theorem ensures_symbolicRoots (hrange : bounds.InRange) (hpasses : 2 ≤ bounds.maxPasses)
    (hlimit : 2 ≤ bounds.maxExactExponent) {a b c : Rat} (ha : a ≠ 0)
    (hd : Rational.sqrt? (b * b - 4 * a * c) = none) :
    Ensures bounds (fun _ => False)
      (fun roots => roots ≠ [] ∧ ∀ root ∈ roots, root.value.constant? = none)
      (symbolicRoots bounds (.constant a) (.constant b) (.constant c)) := by
  have hd0 : b * b - 4 * a * c ≠ 0 := by
    intro hzero
    rw [hzero] at hd
    cases hd.symm.trans (Rational.root?_zero two_ne_zero)
  have hone : 1 ≤ bounds.maxExactExponent := by omega
  unfold symbolicRoots
  refine .bind (.canonicalize _) ((reduces_discriminant hrange hlimit a b c).ensures hpasses) ?_
  rintro _ rfl
  rw [if_neg (by simpa [Expr.isZero] using hd0)]
  obtain ⟨e, k, gs, hrun, hterm, hradical, hvalue⟩ := exists_squareRoot hd0 hone
  obtain ⟨w, hw, hsquare⟩ := hvalue fun _ => 0
  refine .bind (.squareRoot _) (by rw [hrun]; exact hradical.ensures hpasses) ?_
  rintro _ rfl
  have hplus := hradical.value hw
  have hminus := Interpretation.value_neg hplus
  have hopposite : Reduces bounds (.neg (Expr.product (withFactor k gs))) _ :=
    .mul (.cons (Reduces.constant _) (.cons hterm.normal.reduces .nil)) hterm.multiply_neg_one
      (hterm.of_ne (neg_ne_zero.mpr hterm.ne_zero)).normal
  obtain ⟨first, hfirst, hfirst'⟩ := exists_root (b := b) ha hd hone hopposite hminus
    (by rw [neg_sq, hsquare])
  obtain ⟨second, hsecond, hsecond'⟩ := exists_root (b := b) ha hd hone hterm.normal.reduces hplus
    hsquare
  refine .bind (.canonicalize _) (hfirst.ensures hpasses) ?_
  rintro _ rfl
  refine .bind (.canonicalize _) (hsecond.ensures hpasses) ?_
  rintro _ rfl
  exact .pure ⟨by simp, by simp [hfirst', hsecond']⟩

/-! ## Solutions -/

/-- What the solutions of `f = 0` have to be for a polynomial of degree at most two. -/
structure Solves (f : ℚ[X]) (solutions : SolutionSet) : Prop where
  all_iff : solutions = .all ↔ f = 0
  none_iff : solutions = .none ↔ ∃ c, c ≠ 0 ∧ f = C c
  linear : f.natDegree = 1 → solutions = .roots [⟨.constant (-f.coeff 0 / f.coeff 1), 1⟩]
  /-- The values are numbers just where there is a rational root. -/
  numbers_iff : f.natDegree = 2 → solutions.values ≠ [] ∧
    ∀ e ∈ solutions.values, (∃ q, e = .constant q) ↔ ∃ q, f.IsRoot q
  /-- In that case they are the rational roots in ascending order, and factor the polynomial. -/
  factors : f.natDegree = 2 → (∃ q, f.IsRoot q) → ∃ rs : List (Rat × Nat),
    solutions = .roots (asRoots rs) ∧ FactorsAs f rs ∧ (rs.map Prod.snd).sum = 2

theorem reduces_linear {a b : Rat} (ha : a ≠ 0) (hlimit : 1 ≤ bounds.maxExactExponent) :
    Reduces bounds (.div (.neg (.constant b)) (.constant a)) (.constant (-b / a)) := by
  have hroot : Reduces bounds (.div (.neg (.constant b)) (.constant a)) (.constant [-b, 1 / a].prod) :=
    .mul_constants (.cons (reduces_neg b) (.cons ((Reduces.constant a).inverse ha hlimit) .nil))
  simpa [div_eq_mul_inv] using hroot

theorem solves_of_degree_zero {f : ℚ[X]} {p : Polynomial} (hf : p.isZero = true ↔ f = 0)
    (hdegree : f.natDegree = 0) : Solves f (if p.isZero then .all else .none) := by
  obtain ⟨c, rfl⟩ : ∃ c, f = C c := ⟨_, Polynomial.eq_C_of_natDegree_eq_zero hdegree⟩
  have hzero : p.isZero = true ↔ c = 0 := by rw [hf, Polynomial.C_eq_zero]
  refine ⟨?_, ?_, fun h => by omega, fun h => by omega, fun h => by omega⟩
  · rw [Polynomial.C_eq_zero, ← hzero]
    split <;> simp_all
  · have hconstant : (∃ d, d ≠ 0 ∧ C c = C d) ↔ c ≠ 0 :=
      ⟨fun ⟨d, hd, h⟩ => Polynomial.C_injective h ▸ hd, fun h => ⟨c, h, rfl⟩⟩
    rw [hconstant, Ne, ← hzero]
    split <;> simp_all

/-- Roots solve a polynomial that is no constant. -/
theorem solves_roots {f : ℚ[X]} {roots : List Root} (hdegree : f.natDegree ≠ 0)
    (hlinear : f.natDegree = 1 → roots = [⟨.constant (-f.coeff 0 / f.coeff 1), 1⟩])
    (hnumbers : f.natDegree = 2 → roots ≠ [] ∧
      ∀ root ∈ roots, (∃ q, root.value = .constant q) ↔ ∃ q, f.IsRoot q)
    (hfactors : f.natDegree = 2 → (∃ q, f.IsRoot q) → ∃ rs : List (Rat × Nat),
      roots = asRoots rs ∧ FactorsAs f rs ∧ (rs.map Prod.snd).sum = 2) :
    Solves f (.roots roots) where
  all_iff := iff_of_false (by simp) (by rintro rfl; simp at hdegree)
  none_iff := iff_of_false (by simp) (by rintro ⟨c, -, rfl⟩; simp at hdegree)
  linear h := by rw [hlinear h]
  numbers_iff h := by simpa [SolutionSet.values] using hnumbers h
  factors h hroot := by
    obtain ⟨rs, rfl, hrs⟩ := hfactors h hroot
    exact ⟨rs, rfl, hrs⟩

theorem ensures_quadraticRoots (hrange : bounds.InRange) (hpasses : 2 ≤ bounds.maxPasses)
    (hlimit : 2 ≤ bounds.maxExactExponent) {f : ℚ[X]} {p : Polynomial} (hf : p.Represents f)
    (hdegree : f.natDegree = 2) :
    Ensures bounds (fun _ => False) (fun roots => Solves f (.roots roots))
      (quadraticRoots bounds p) := by
  have hne := coeff_natDegree_ne_zero two_ne_zero hdegree
  unfold quadraticRoots
  simp only [hf.coefficient, constant?]
  cases hroots : rationalRoots? (f.coeff 2) (f.coeff 1) (f.coeff 0) with
  | some roots =>
    obtain ⟨rs, hfactors, htotal, rfl⟩ := exists_factorsAs hdegree hroots
    refine .pure (solves_roots (by omega) (by omega) (fun _ => ⟨?_, fun root hroot => ?_⟩)
      fun _ _ => ⟨rs, rfl, hfactors, htotal⟩)
    · rintro hnil
      rw [List.map_eq_nil_iff.mp hnil] at htotal
      cases htotal
    · obtain ⟨r, hr, rfl⟩ := List.mem_map.mp hroot
      exact iff_of_true ⟨r.1, rfl⟩ ⟨r.1, (hfactors.isRoot r.1).mpr (List.mem_map_of_mem hr)⟩
  | none =>
    have hnone := not_isRoot_of_rationalRoots? hdegree hroots
    intro memo hmemo
    refine (ensures_symbolicRoots hrange hpasses hlimit hne (Option.map_eq_none_iff.mp hroots) memo
      hmemo).imp fun roots hsymbolic => ?_
    refine solves_roots (by omega) (by omega) (fun _ => ⟨hsymbolic.1, fun root hroot => ?_⟩)
      fun _ hrational => hrational.elim fun q hq => absurd hq (hnone q)
    refine iff_of_false ?_ (not_exists.mpr hnone)
    rintro ⟨q, hq⟩
    cases (hsymbolic.2 root hroot).symm.trans (constant?_eq_some.mpr hq)

/-- Solving a polynomial with rational coefficients of degree at most two always ends well. -/
theorem ends_solve (hrange : bounds.InRange) (hpasses : 2 ≤ bounds.maxPasses)
    (hlimit : 2 ≤ bounds.maxExactExponent) {memo extracted : Memo} (hmemo : memo.Reachable bounds)
    {e : Expr} {name : String} {p : Polynomial}
    (hrun : (Polynomial.ofExpr bounds e name).run.run memo = (.ok p, extracted)) {f : ℚ[X]}
    (hf : p.Represents f) (hdegree : f.natDegree ≤ 2) :
    Ends (fun _ => False) (Solves f) ((solve bounds e name).run.run memo).1 := by
  refine Ensures.after hmemo (.polynomialOfExpr e name) hrun ?_
  dsimp only
  rw [hf.degree, if_neg (by omega)]
  obtain h | h | h : f.natDegree = 0 ∨ f.natDegree = 1 ∨ f.natDegree = 2 := by omega
  · rw [h]
    exact .pure (solves_of_degree_zero hf.isZero h)
  · have hne := coeff_natDegree_ne_zero one_ne_zero h
    rw [h, hf.coefficient, hf.coefficient]
    refine .bind (.canonicalize _) ((reduces_linear hne (by omega)).ensures hpasses) ?_
    rintro _ rfl
    exact .pure (solves_roots (by omega) (fun _ => rfl) (by omega) (by omega))
  · rw [h]
    exact .bind (.quadraticRoots p) (ensures_quadraticRoots hrange hpasses hlimit hf h)
      fun roots hroots => .pure hroots

end Solve

namespace Session

open Solve

/-- A session solves every equation whose polynomial has rational coefficients and degree at most
two: all values where the polynomial is zero, none where it is another constant, the quotient of
the coefficients for degree one. For degree two the solutions are numbers just where the polynomial
has a rational root; then they are its roots in ascending order, and factor it with their
multiplicities. -/
theorem solve_rational {session extracted : Session} (hsession : session.Reachable {})
    {handle : Handle} {name : String} {p : Polynomial}
    (hanswer : session.answer (polynomial handle name) = (.ok p, extracted))
    {qs : List (Nat × Rat)} (hrational : p.rational? = some qs) (hdegree : p.degree?.getD 0 ≤ 2) :
    ∃ solutions, (session.answer (solve handle name)).1 = .ok solutions ∧
      Solves (Polynomial.overRationals qs) solutions := by
  have hmemo := hsession.consistent.memo
  have hrun := (polynomial_performs hsession.consistent handle name).run_eq hanswer
  obtain ⟨hgraded, hfixed⟩ := Polynomial.Graded.of_ofExpr hmemo hrun
  have hf := Polynomial.represents_overRationals hgraded (fun t ht => (hfixed t ht).2) hrational
  have hends := ends_solve (by unfold Bounds.InRange; decide) (by decide) (by decide) hmemo hrun hf
    (hf.degree ▸ hdegree)
  obtain ⟨solutions, houtcome, hsolves⟩ := hends.exists_ok
  refine ⟨solutions, ?_, hsolves⟩
  rw [(solve_performs hsession.consistent handle name).outcome_eq, houtcome]

/-- In a session that read `2*x^2 - 3*x + 1` the equation is solved by `1/2` and `1`. -/
theorem solve_rational_text :
    ∃ (session extracted : Session) (handle : Handle) (p : Polynomial),
      session.Reachable {} ∧ session.answer (polynomial handle "x") = (.ok p, extracted) ∧
      p.rational? = some [(0, 1), (1, -3), (2, 2)] ∧ p.degree?.getD 0 ≤ 2 ∧
      (session.answer (solve handle "x")).1 =
        .ok (.roots [⟨.constant (1 / 2), 1⟩, ⟨.constant 1, 1⟩]) ∧
      Solves (Polynomial.overRationals [(0, 1), (1, -3), (2, 2)])
        (.roots [⟨.constant (1 / 2), 1⟩, ⟨.constant 1, 1⟩]) := by
  have hread : Formula.read "2*x^2 - 3*x + 1" =
      .ok (.add [.mul [.constant 2, .pow (.symbol "x") (.constant 2)],
        .mul [.constant (-1), .mul [.constant 3, .symbol "x"]], .constant 1]) := by cbv
  obtain ⟨session, handle, hreachable, hexpr, hmemo⟩ := exists_parsed {} hread
  have hpolynomial : (session.answer (polynomial handle "x")).1 =
      .ok ⟨[(0, .constant 1), (1, .constant (-3)), (2, .constant 2)]⟩ := by
    rw [(polynomial_performs hreachable.consistent handle "x").outcome_eq, hexpr, hmemo]
    cbv
  have hsolve : (session.answer (solve handle "x")).1 =
      .ok (.roots [⟨.constant (1 / 2), 1⟩, ⟨.constant 1, 1⟩]) := by
    rw [(solve_performs hreachable.consistent handle "x").outcome_eq, hexpr, hmemo]
    cbv
  have hrational : Polynomial.rational? ⟨[(0, .constant 1), (1, .constant (-3)), (2, .constant 2)]⟩ =
      some [(0, 1), (1, -3), (2, 2)] := rfl
  obtain ⟨solutions, hsolutions, hsolves⟩ :=
    solve_rational hreachable (Prod.ext hpolynomial rfl) hrational (by decide)
  cases hsolve.symm.trans hsolutions
  exact ⟨session, _, handle, _, hreachable, Prod.ext hpolynomial rfl, hrational, by decide, hsolve,
    hsolves⟩

end Session

end ClosedForm
