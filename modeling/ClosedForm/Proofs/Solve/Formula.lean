import ClosedForm.Proofs.Solve.Quadratic
import Mathlib.Algebra.Polynomial.Degree.Lemmas
import Mathlib.Algebra.Polynomial.EraseLead
import Mathlib.Algebra.Polynomial.Monic

/-!
# Symbolic roots

At an assignment at which its coefficients have values, the polynomial of an equation is one over the
field (`Polynomial.DenotesAt`). If the degree stays the same there, and the square root that the formula
takes has a value (`Solve.TakesRootOf`), then the solutions have values that factor this polynomial
(`Solve.FactorsAt`, `Solve.exists_factorsAt`).

A solution is canonicalized several times on the way: the discriminant, its square root and the
quotient. As canonical forms keep values, what has to be reckoned with is the formula as it is first
written (`Solve.discriminant`, `Solve.rootOf`). Sums and products of the solutions are those of the
roots of any polynomial that factors (`Solve.sum_and_product`).
-/

open Polynomial (C X)
open scoped Polynomial

namespace ClosedForm

open ClosedForm.Expr Canonical

variable {K : Type*} [Field K] [CharZero K] {M : Interpretation K} {σ : String → K} {bounds : Bounds}

namespace Solve

/-! ## Factors -/

/-- The product of linear factors with multiplicities. -/
noncomputable def linearFactors (rs : List (K × ℕ)) : K[X] :=
  (rs.map fun r => (X - C r.1) ^ r.2).prod

/-- Numbers with multiplicities are the values of solutions and factor a polynomial. -/
structure FactorsAt (M : Interpretation K) (σ : String → K) (f : K[X]) (roots : List Root)
    (rs : List (K × ℕ)) : Prop where
  value : List.Forall₂ (fun root r => M.value σ root.value = some r.1 ∧ root.multiplicity = r.2) roots rs
  positive : ∀ r ∈ rs, r.2 ≠ 0
  product : f = C f.leadingCoeff * linearFactors rs

theorem FactorsAt.isRoot {f : K[X]} {roots : List Root} {rs : List (K × ℕ)}
    (h : FactorsAt M σ f roots rs) {r : K × ℕ} (hr : r ∈ rs) : f.IsRoot r.1 := by
  rw [h.product, Polynomial.IsRoot.def, Polynomial.eval_mul, linearFactors, Polynomial.eval_list_prod]
  refine mul_eq_zero_of_right _ (List.prod_eq_zero (List.mem_map.mpr ⟨_, List.mem_map_of_mem hr, ?_⟩))
  simp [h.positive r hr]

/-- One solution, as often as the degree says. -/
theorem factorsAt_single {f : K[X]} {e : Expr} {x : K} {n : ℕ} (hn : n ≠ 0)
    (hx : M.value σ e = some x) (hf : f = C f.leadingCoeff * (X - C x) ^ n) :
    FactorsAt M σ f [⟨e, n⟩] [(x, n)] where
  value := .cons ⟨hx, rfl⟩ .nil
  positive := by simpa using hn
  product := by simpa [linearFactors] using hf

/-- Two solutions, which may have the same value. -/
theorem factorsAt_pair {f : K[X]} {d e : Expr} {x y : K} (hx : M.value σ d = some x)
    (hy : M.value σ e = some y) (hf : f = C f.leadingCoeff * ((X - C x) * (X - C y))) :
    FactorsAt M σ f [⟨d, 1⟩, ⟨e, 1⟩] [(x, 1), (y, 1)] where
  value := .cons ⟨hx, rfl⟩ (.cons ⟨hy, rfl⟩ .nil)
  positive := by simp
  product := by simpa [linearFactors] using hf

omit [CharZero K] in
/-- A product of linear factors and its two outer coefficients. -/
theorem linearFactors_spec (rs : List (K × ℕ)) :
    (linearFactors rs).Monic ∧ (linearFactors rs).natDegree = (rs.map Prod.snd).sum ∧
      (linearFactors rs).nextCoeff = -(rs.map fun r => (r.2 : K) * r.1).sum ∧
      (linearFactors rs).coeff 0 = (-1) ^ (rs.map Prod.snd).sum * (rs.map fun r => r.1 ^ r.2).prod := by
  induction rs with
  | nil =>
    have hone : Polynomial.nextCoeff (1 : K[X]) = 0 := Polynomial.nextCoeff_C_eq_zero 1
    simp [linearFactors, hone]
  | cons r rs ih =>
    obtain ⟨hmonic, hdegree, hnext, hlast⟩ := ih
    have hlinear := Polynomial.monic_X_sub_C r.1
    have hfactor : ((X - C r.1) ^ r.2).Monic := hlinear.pow r.2
    have hcons : linearFactors (r :: rs) = (X - C r.1) ^ r.2 * linearFactors rs := List.prod_cons
    rw [hcons]
    simp only [List.map_cons, List.prod_cons, List.sum_cons]
    refine ⟨hfactor.mul hmonic, ?_, ?_, ?_⟩
    · rw [hfactor.natDegree_mul hmonic, hdegree, hlinear.natDegree_pow, Polynomial.natDegree_X_sub_C,
        mul_one]
    · rw [hfactor.nextCoeff_mul hmonic, hlinear.nextCoeff_pow, Polynomial.nextCoeff_X_sub_C, hnext,
        nsmul_eq_mul]
      ring
    · have hroot : ((X - C r.1) ^ r.2).coeff 0 = (-r.1) ^ r.2 := by
        simp [Polynomial.coeff_zero_eq_eval_zero]
      rw [Polynomial.mul_coeff_zero, hlast, hroot, neg_pow, pow_add]
      ring

omit [CharZero K] in
/-- The sum and the product of what factors a quadratic. -/
theorem sum_and_product {f : K[X]} (hdegree : f.natDegree = 2) {rs : List (K × ℕ)}
    (hf : f = C f.leadingCoeff * linearFactors rs) :
    (rs.map fun r => (r.2 : K) * r.1).sum = -f.coeff 1 / f.coeff 2 ∧
      (rs.map fun r => r.1 ^ r.2).prod = f.coeff 0 / f.coeff 2 := by
  obtain ⟨-, htotal, hnext, hlast⟩ := linearFactors_spec rs
  have hleading : f.leadingCoeff = f.coeff 2 := by rw [Polynomial.leadingCoeff, hdegree]
  have hne := coeff_natDegree_ne_zero two_ne_zero hdegree
  rw [hleading] at hf
  have hcount : (rs.map Prod.snd).sum = 2 := by
    rw [← htotal, ← hdegree, ← Polynomial.natDegree_C_mul hne, ← hf]
  have hsum : f.coeff 1 = f.coeff 2 * -(rs.map fun r => (r.2 : K) * r.1).sum := by
    rw [← hnext, ← Polynomial.nextCoeff_C_mul, ← hf,
      Polynomial.nextCoeff_of_natDegree_pos (by omega), hdegree]
  have hproduct : f.coeff 0 = f.coeff 2 * (rs.map fun r => r.1 ^ r.2).prod := by
    rw [hcount, neg_one_sq, one_mul] at hlast
    rw [← hlast, ← Polynomial.coeff_C_mul, ← hf]
  rw [hsum, hproduct]
  constructor <;> field_simp

/-! ## The formula -/

/-- The discriminant of a polynomial, before it is simplified. -/
def discriminant (p : Polynomial) : Expr :=
  .add [.pow (p.coefficient 1) (.integer 2), .mul [.integer (-4), p.coefficient 2, p.coefficient 0]]

/-- The square root of `d`, before it is simplified. -/
def rootOf (d : Expr) : Expr :=
  if d.constant?.any (· < 0) then .mul [.pow (.neg d) half, .imaginaryUnit] else .pow d half

/-- The rational roots, where the coefficients are numbers and the discriminant is a square. -/
def knownRoots? (p : Polynomial) : Option (List Root) := do
  let a ← (p.coefficient 2).constant?
  let b ← (p.coefficient 1).constant?
  let c ← (p.coefficient 0).constant?
  rationalRoots? a b c

/-- The square root that the formula takes: there are no rational roots, and the memo has `d`, which is
not `0`, as the form of the discriminant. -/
structure TakesRootOf (memo : Memo) (p : Polynomial) (d : Expr) : Prop where
  degree : p.degree? = some 2
  irrational : knownRoots? p = none
  find : memo.find? (discriminant p) = some d
  nonzero : d.isZero = false

theorem squareRoot_eq (bounds : Bounds) (d : Expr) :
    squareRoot bounds d = canonicalize bounds (rootOf d) := by
  unfold squareRoot rootOf
  cases d.constant? with
  | none => rfl
  | some q =>
    simp only [Option.any_some]
    split <;> rfl

theorem quadraticRoots_eq (bounds : Bounds) (p : Polynomial) :
    quadraticRoots bounds p = match knownRoots? p with
      | some roots => pure roots
      | none => symbolicRoots bounds (p.coefficient 2) (p.coefficient 1) (p.coefficient 0) := by
  unfold quadraticRoots knownRoots?
  dsimp only
  generalize (p.coefficient 2).constant? = a
  generalize (p.coefficient 1).constant? = b
  generalize (p.coefficient 0).constant? = c
  cases a <;> cases b <;> cases c <;> rfl

/-! ## Values -/

theorem value_discriminant {p : Polynomial} {f : K[X]} (h : p.DenotesAt M σ f) :
    M.value σ (discriminant p) = some (f.coeff 1 * f.coeff 1 - 4 * f.coeff 2 * f.coeff 0) := by
  have hsquare : M.pow (f.coeff 1) 2 = some (f.coeff 1 ^ 2) := by
    simpa using M.pow_int (f.coeff 1) 2 (.inr (by norm_num))
  simp only [discriminant, integer, Interpretation.value, Interpretation.sumValue,
    Interpretation.productValue, h 0, h 1, h 2]
  simp [hsquare]
  ring

/-- The square of a square root. -/
theorem sq_of_value_half {d : Expr} {x w : K} (hd : M.value σ d = some x)
    (hw : M.value σ (.pow d half) = some w) : w ^ 2 = x := by
  obtain ⟨b, u, hb, hu, hpow⟩ := Interpretation.value_pow_eq_some.mp hw
  cases hd.symm.trans hb
  rw [half_eq, Interpretation.value_constant] at hu
  cases hu
  have hsquare : M.pow w (2 : ℤ) = some (w ^ 2) := by
    rw [M.pow_int w 2 (.inr (by norm_num)), zpow_ofNat]
  have hwhole := M.pow_pow x _ 2 w (w ^ 2) hpow hsquare
  have hone : (((1 / 2 : Rat) : K) * ((2 : ℤ) : K)) = ((1 : ℤ) : K) := by
    push_cast
    norm_num
  rw [hone, M.pow_int x 1 (.inr (by norm_num)), zpow_one] at hwhole
  exact (Option.some.inj hwhole).symm

theorem sq_of_value_rootOf {d : Expr} {x w : K} (hd : M.value σ d = some x)
    (hw : M.value σ (rootOf d) = some w) : w * w = x := by
  unfold rootOf at hw
  split at hw
  · rw [Interpretation.value_mul] at hw
    obtain ⟨v, y, hv, hy, rfl⟩ := Interpretation.productValue_cons_eq_some.mp hw
    obtain ⟨i, z, hi, hz, rfl⟩ := Interpretation.productValue_cons_eq_some.mp hy
    cases hi
    cases hz
    have hsquare := sq_of_value_half (Interpretation.value_neg hd) hv
    linear_combination -hsquare + v ^ 2 * M.i_sq
  · rw [← pow_two]
    exact sq_of_value_half hd hw

/-- Over the complex numbers a positive rational has the square root that is taken. -/
theorem exists_value_rootOf {σ : String → ℂ} {d : Expr} {q : Rat} (hq : 0 < q)
    (hd : Interpretation.complex.value σ d = some (q : ℂ)) :
    ∃ w, Interpretation.complex.value σ (rootOf d) = some w := by
  have hnegative : d.constant?.any (· < 0) = false := by
    cases hconstant : d.constant? with
    | none => rfl
    | some b =>
      rw [constant?_eq_some.mp hconstant, Interpretation.value_constant, Option.some.injEq,
        Rat.cast_inj] at hd
      simpa [hd] using hq.le
  obtain ⟨w, hw, -⟩ := exists_value_half hq hd
  exact ⟨w, by rwa [rootOf, hnegative]⟩

/-! ## Runs -/

variable {memo later : Memo} {p : Polynomial} {f : K[X]} {roots : List Root}

/-- A polynomial of degree two in terms of a square root of its discriminant. -/
theorem eq_product_of_root (hdegree : f.natDegree = 2) {w : K}
    (hw : w * w = f.coeff 1 * f.coeff 1 - 4 * f.coeff 2 * f.coeff 0) :
    f = C f.leadingCoeff * ((X - C ((-f.coeff 1 - w) / (2 * f.coeff 2))) *
      (X - C ((-f.coeff 1 + w) / (2 * f.coeff 2)))) := by
  have hleading : f.leadingCoeff = f.coeff 2 := by rw [Polynomial.leadingCoeff, hdegree]
  rw [hleading]
  exact quadratic_eq_product hdegree rfl rfl rfl (coeff_natDegree_ne_zero two_ne_zero hdegree) hw

theorem exists_factorsAt_of_known (hdegree : f.natDegree = 2) (hp : p.DenotesAt M σ f)
    (h : knownRoots? p = some roots) : ∃ rs, FactorsAt M σ f roots rs := by
  simp only [knownRoots?, Option.bind_eq_bind, Option.bind_eq_some_iff, constant?_eq_some] at h
  obtain ⟨a, ha, b, hb, c, hc, hroots⟩ := h
  have hcoefficient {k : Nat} {q : Rat} (hq : p.coefficient k = .constant q) : f.coeff k = q := by
    have hk := hp k
    rw [hq, Interpretation.value_constant] at hk
    exact (Option.some.inj hk).symm
  obtain ⟨r, hr, hroots⟩ := Option.map_eq_some_iff.mp hroots
  obtain ⟨-, hsquare⟩ := Rational.sqrt?_eq_some.mp hr
  have hproduct := eq_product_of_root (w := (r : K)) hdegree (by
    rw [hcoefficient ha, hcoefficient hb, hcoefficient hc]
    exact_mod_cast hsquare)
  rw [hcoefficient ha, hcoefficient hb] at hproduct
  have hfirst : M.value σ (.constant ((-b - r) / (2 * a))) = some ((-b - r : K) / (2 * a)) := by
    rw [Interpretation.value_constant]
    push_cast
    rfl
  have hsecond : M.value σ (.constant ((-b + r) / (2 * a))) = some ((-b + r : K) / (2 * a)) := by
    rw [Interpretation.value_constant]
    push_cast
    rfl
  dsimp only at hroots
  split at hroots
  · next hzero =>
    cases hroots
    subst hzero
    refine ⟨_, factorsAt_single two_ne_zero hfirst ?_⟩
    rw [Rat.cast_zero, add_zero, sub_zero] at hproduct
    rwa [Rat.cast_zero, sub_zero, pow_two]
  · split at hroots <;> cases hroots
    · exact ⟨_, factorsAt_pair hfirst hsecond hproduct⟩
    · exact ⟨_, factorsAt_pair hsecond hfirst (by rwa [mul_comm (X - C ((-b + r : K) / (2 * a)))])⟩

theorem quotient_run (hmemo : memo.Reachable bounds) {d e r : Expr}
    (hrun : (quotient bounds d e).run.run memo = (.ok r, later)) {x y : K}
    (hx : M.value σ d = some x) (hy : M.value σ e = some y) (hne : y ≠ 0) :
    M.value σ r = some (x / y) :=
  hmemo.keepsValue_run (congrArg Prod.fst hrun) _ (Interpretation.value_div hx hy hne)

/-- The formula gives values that factor the polynomial, where the square root that it takes has a
value. -/
theorem exists_factorsAt_of_symbolic (hmemo : memo.Reachable bounds) (hdegree : f.natDegree = 2)
    (hp : p.DenotesAt M σ f)
    (hrun : (symbolicRoots bounds (p.coefficient 2) (p.coefficient 1) (p.coefficient 0)).run.run memo =
      (.ok roots, later))
    (hroot : ∀ d, later.find? (discriminant p) = some d → d.isZero = false →
      ∃ w, M.value σ (rootOf d) = some w) :
    ∃ rs, FactorsAt M σ f roots rs := by
  have hne := coeff_natDegree_ne_zero two_ne_zero hdegree
  obtain ⟨d, simplified, hd, hrun⟩ := run_bind_eq_ok.mp hrun
  have hsimplified := (Recording.canonicalize (discriminant p)).reachable hmemo hd
  have hvalue := hmemo.keepsValue_run (congrArg Prod.fst hd) _ (value_discriminant hp)
  dsimp only at hrun
  split at hrun
  · next hzero =>
    obtain ⟨root, _, hquotient, hrun⟩ := run_bind_eq_ok.mp hrun
    cases hrun
    have hproduct := eq_product_of_root (w := 0) hdegree (by
      rw [mul_zero, Polynomial.eq_zero_of_value hvalue hzero])
    rw [sub_zero, add_zero, ← pow_two] at hproduct
    exact ⟨_, factorsAt_single two_ne_zero (quotient_run hsimplified hquotient
      (Interpretation.value_neg (hp 1)) (value_twice (hp 2)) (mul_ne_zero two_ne_zero hne)) hproduct⟩
  · next hnonzero =>
    obtain ⟨radical, rooted, hradical, hrun⟩ := run_bind_eq_ok.mp hrun
    obtain ⟨first, halved, hfirst, hrun⟩ := run_bind_eq_ok.mp hrun
    obtain ⟨second, _, hsecond, hrun⟩ := run_bind_eq_ok.mp hrun
    cases hrun
    have hrooted := (Recording.squareRoot d).reachable hsimplified hradical
    have hhalved := (Recording.canonicalize _).reachable hrooted hfirst
    have hgrows := ((Recording.squareRoot d).grows hradical).trans
      (((Recording.canonicalize _).grows hfirst).trans ((Recording.canonicalize _).grows hsecond))
    have hfind := hgrows.find?_eq hsimplified (find?_of_canonicalizeWithin hmemo hd).1
    obtain ⟨w, hw⟩ := hroot d hfind (by simpa using hnonzero)
    rw [squareRoot_eq] at hradical
    have hradical := hsimplified.keepsValue_run (congrArg Prod.fst hradical) _ hw
    have hminus := value_root (hp 2) hne (hp 1) (Interpretation.value_neg hradical)
    have hplus := value_root (hp 2) hne (hp 1) hradical
    rw [← sub_eq_add_neg] at hminus
    exact ⟨_, factorsAt_pair (hrooted.keepsValue_run (congrArg Prod.fst hfirst) _ hminus)
      (hhalved.keepsValue_run (congrArg Prod.fst hsecond) _ hplus)
      (eq_product_of_root hdegree (sq_of_value_rootOf hvalue hw))⟩

/-- A polynomial that is not constant has solutions that are listed. -/
theorem Solves.exists_roots {g : ℚ[X]} {solutions : SolutionSet} (h : Solves g solutions)
    (hdegree : g.natDegree ≠ 0) : ∃ roots, solutions = .roots roots := by
  cases solutions with
  | all =>
    rw [h.all_iff.mp rfl, Polynomial.natDegree_zero] at hdegree
    exact absurd rfl hdegree
  | none =>
    obtain ⟨c, -, rfl⟩ := h.none_iff.mp rfl
    exact absurd (Polynomial.natDegree_C c) hdegree
  | roots roots => exact ⟨roots, rfl⟩

/-- How roots are found for a polynomial, in three ways. -/
inductive Finds (bounds : Bounds) (p : Polynomial) (memo : Memo) : List Root → Memo → Prop
  | linear {root : Expr} {later : Memo} : p.degree? = some 1 →
      (quotient bounds (.neg (p.coefficient 0)) (p.coefficient 1)).run.run memo = (.ok root, later) →
      Finds bounds p memo [⟨root, 1⟩] later
  | known {roots : List Root} : p.degree? = some 2 → knownRoots? p = some roots →
      Finds bounds p memo roots memo
  | symbolic {roots : List Root} {later : Memo} : p.degree? = some 2 → knownRoots? p = none →
      (symbolicRoots bounds (p.coefficient 2) (p.coefficient 1) (p.coefficient 0)).run.run memo =
        (.ok roots, later) →
      Finds bounds p memo roots later

theorem Finds.degree (h : Finds bounds p memo roots later) :
    p.degree? = some 1 ∨ p.degree? = some 2 := by
  cases h with
  | linear h => exact .inl h
  | known h => exact .inr h
  | symbolic h => exact .inr h

theorem finds_of_quadraticRoots (hdegree : p.degree? = some 2)
    (hrun : (quadraticRoots bounds p).run.run memo = (.ok roots, later)) :
    Finds bounds p memo roots later := by
  rw [quadraticRoots_eq] at hrun
  cases hknown : knownRoots? p with
  | some known =>
    rw [hknown] at hrun
    cases hrun
    exact .known hdegree hknown
  | none =>
    rw [hknown] at hrun
    exact .symbolic hdegree hknown hrun

/-- Solving that ends with roots extracts the polynomial and finds its roots. -/
theorem run_solve {e : Expr} {name : String}
    (hrun : (solve bounds e name).run.run memo = (.ok (.roots roots), later)) :
    ∃ p extracted, (Polynomial.ofExpr bounds e name).run.run memo = (.ok p, extracted) ∧
      Finds bounds p extracted roots later := by
  obtain ⟨p, extracted, hp, hrun⟩ := run_bind_eq_ok.mp hrun
  refine ⟨p, extracted, hp, ?_⟩
  have hdegree {n : Nat} (hn : n ≠ 0) (h : p.degree?.getD 0 = n) : p.degree? = some n := by
    cases hd : p.degree? with
    | none => simp [hd, hn.symm] at h
    | some k => simpa [hd] using h
  dsimp only at hrun
  split at hrun
  · cases hrun
  · next hle =>
    split at hrun
    · split at hrun <;> cases hrun
    · next h =>
      obtain ⟨root, _, hroot, hrun⟩ := run_bind_eq_ok.mp hrun
      cases hrun
      exact .linear (hdegree one_ne_zero h) hroot
    · next hzero hone =>
      obtain ⟨_, _, hroots, hrun⟩ := run_bind_eq_ok.mp hrun
      cases hrun
      have htwo : p.degree?.getD 0 = 2 := by
        simp only [imp_false] at hzero hone
        omega
      exact finds_of_quadraticRoots (hdegree two_ne_zero htwo) hroots

theorem exists_factorsAt_of_linear (hmemo : memo.Reachable bounds) (hdegree : f.natDegree = 1)
    (hp : p.DenotesAt M σ f) {root : Expr}
    (hrun : (quotient bounds (.neg (p.coefficient 0)) (p.coefficient 1)).run.run memo =
      (.ok root, later)) : ∃ rs, FactorsAt M σ f [⟨root, 1⟩] rs := by
  have hne := coeff_natDegree_ne_zero one_ne_zero hdegree
  have hleading : f.leadingCoeff = f.coeff 1 := by rw [Polynomial.leadingCoeff, hdegree]
  have hvalue := quotient_run hmemo hrun (Interpretation.value_neg (hp 0)) (hp 1) hne
  refine ⟨_, factorsAt_single one_ne_zero hvalue ?_⟩
  have hlinear := Polynomial.eq_X_add_C_of_natDegree_le_one hdegree.le
  rw [hleading, pow_one, mul_sub, ← map_mul, mul_div_cancel₀ _ hne, map_neg, sub_neg_eq_add]
  exact hlinear

/-- Roots that are found have values that factor the polynomial. -/
theorem exists_factorsAt (hmemo : memo.Reachable bounds) (hroots : Finds bounds p memo roots later)
    (hp : p.DenotesAt M σ f) (hdegree : p.degree? = some f.natDegree)
    (hroot : ∀ d, TakesRootOf later p d → ∃ w, M.value σ (rootOf d) = some w) :
    ∃ rs, FactorsAt M σ f roots rs := by
  cases hroots with
  | linear hone hrun =>
    exact exists_factorsAt_of_linear hmemo (Option.some.inj (hdegree.symm.trans hone)) hp hrun
  | known htwo hknown =>
    exact exists_factorsAt_of_known (Option.some.inj (hdegree.symm.trans htwo)) hp hknown
  | symbolic htwo hknown hrun =>
    exact exists_factorsAt_of_symbolic hmemo (Option.some.inj (hdegree.symm.trans htwo)) hp hrun
      fun d hfind hnonzero => hroot d ⟨htwo, hknown, hfind, hnonzero⟩

end Solve

namespace Session

/-- The solutions that a session finds are roots, also where the coefficients have symbols. Take an
assignment at which the coefficients have the values of a polynomial `f` of the same degree over the
field, and at which the square root that the formula takes has a value. There every solution has a
value, which is a root of `f`, and the equation holds with it wherever its left-hand side has a value.
With the multiplicities the values factor `f`, and for degree two they have the sum `-b/a` and the
product `c/a`. -/
theorem solve_roots {session later : Session} (hsession : session.Reachable bounds) {handle : Handle}
    {name : String} {roots : List Root}
    (hanswer : session.answer (solve handle name) = (.ok (.roots roots), later)) :
    ∃ p extracted, session.answer (polynomial handle name) = (.ok p, extracted) ∧
      (p.degree? = some 1 ∨ p.degree? = some 2) ∧
      ∀ (K : Type*) [Field K] [CharZero K] (M : Interpretation K) (σ : String → K) (f : K[X]),
        p.DenotesAt M σ f → f.coeff (p.degree?.getD 0) ≠ 0 →
        (∀ d, Solve.TakesRootOf later.memo p d → ∃ w, M.value σ (Solve.rootOf d) = some w) →
        ∃ rs : List (K × ℕ),
          List.Forall₂ (fun root r => M.value σ root.value = some r.1 ∧ root.multiplicity = r.2) roots rs ∧
          (∀ r ∈ rs, f.IsRoot r.1 ∧ ∀ y,
            M.value (Function.update σ name r.1) (session.pool.expr handle) = some y → y = 0) ∧
          f = C f.leadingCoeff * (rs.map fun r => (X - C r.1) ^ r.2).prod ∧
          (p.degree? = some 2 → (rs.map fun r => (r.2 : K) * r.1).sum = -f.coeff 1 / f.coeff 2 ∧
            (rs.map fun r => r.1 ^ r.2).prod = f.coeff 0 / f.coeff 2) := by
  have hmemo := hsession.consistent.memo
  obtain ⟨p, extracted, hextracted, hfinds⟩ :=
    Solve.run_solve ((solve_performs hsession.consistent handle name).run_eq hanswer)
  have hpolynomial : (session.answer (polynomial handle name)).1 = .ok p :=
    (polynomial_performs hsession.consistent handle name).outcome_eq.trans
      (congrArg Prod.fst hextracted)
  refine ⟨p, _, Prod.ext hpolynomial rfl, hfinds.degree, ?_⟩
  intro K _ _ M σ f hp hleading hroot
  obtain ⟨hgraded, -⟩ := Polynomial.Graded.of_ofExpr hmemo hextracted
  have hdegree : p.degree? = some f.natDegree := by
    rw [Polynomial.natDegree_eq_of_le_of_coeff_ne_zero (hp.natDegree_le hgraded.ascending) hleading]
    rcases hfinds.degree with hdegree | hdegree <;> rw [hdegree] <;> rfl
  obtain ⟨rs, hrs⟩ := Solve.exists_factorsAt
    ((Recording.polynomialOfExpr _ name).reachable hmemo hextracted) hfinds hp hdegree hroot
  refine ⟨rs, hrs.value, fun r hr => ⟨hrs.isRoot hr, fun y hy => ?_⟩, hrs.product, fun htwo => ?_⟩
  · have hvalue := Polynomial.valueAt_of_ofExpr hmemo hextracted hy
    rw [Function.update_self, Polynomial.valueAt_eq_eval hgraded.ascending (hp.update hgraded.free r.1),
      hrs.isRoot hr] at hvalue
    exact (Option.some.inj hvalue).symm
  · exact Solve.sum_and_product (Option.some.inj (hdegree.symm.trans htwo)) hrs.product

/-- In a session that read `x^2 - 2` the polynomial is represented by `X^2 - 2`, and there are solutions.
Over the complex numbers each has the square `2`, and with the multiplicities they have the sum `0` and
the product `-2`. -/
theorem solve_roots_text :
    ∃ (session later : Session) (handle : Handle) (roots : List Root) (rs : List (ℂ × ℕ)),
      session.Reachable {} ∧ session.answer (solve handle "x") = (.ok (.roots roots), later) ∧
      List.Forall₂ (fun root r => Interpretation.complex.value (fun _ => 0) root.value = some r.1 ∧
        root.multiplicity = r.2) roots rs ∧
      (∀ r ∈ rs, r.1 ^ 2 = 2) ∧ (rs.map fun r => (r.2 : ℂ) * r.1).sum = 0 ∧
      (rs.map fun r => r.1 ^ r.2).prod = -2 := by
  have hread : Formula.read "x^2 - 2" =
      .ok (.add [.pow (.symbol "x") (.constant 2), .mul [.constant (-1), .constant 2]]) := by cbv
  obtain ⟨session, handle, hsession, hexpr, hmemo⟩ := exists_parsed {} hread
  obtain ⟨extracted, hextracted⟩ : ∃ extracted, (Polynomial.ofExpr {} (session.pool.expr handle)
      "x").run.run session.memo = (.ok ⟨[(0, .constant (-2)), (2, .one)]⟩, extracted) := by
    rw [hexpr, hmemo]
    exact ⟨_, Prod.ext (by cbv) rfl⟩
  have hmemo := hsession.consistent.memo
  obtain ⟨hgraded, hfixed⟩ := Polynomial.Graded.of_ofExpr hmemo hextracted
  have hg : Polynomial.Represents ⟨[(0, .constant (-2)), (2, .one)]⟩
      (Polynomial.overRationals [(0, -2), (2, 1)]) :=
    Polynomial.represents_overRationals hgraded (fun t ht => (hfixed t ht).2) rfl
  have hdegree : (Polynomial.overRationals [(0, -2), (2, 1)]).natDegree = 2 := hg.degree.symm
  have hpolynomial : (session.answer (polynomial handle "x")).1 =
      .ok ⟨[(0, .constant (-2)), (2, .one)]⟩ :=
    (polynomial_performs hsession.consistent handle "x").outcome_eq.trans
      (congrArg Prod.fst hextracted)
  have hends := Solve.ends_solve (by unfold Bounds.InRange; decide) (by decide) (by decide) hmemo
    hextracted hg hdegree.le
  obtain ⟨solutions, hsolutions, hsolves⟩ := hends.exists_ok
  obtain ⟨roots, rfl⟩ := hsolves.exists_roots (by omega)
  have hanswer : (session.answer (solve handle "x")).1 = .ok (.roots roots) :=
    (solve_performs hsession.consistent handle "x").outcome_eq.trans hsolutions
  have hlater : (session.answer (solve handle "x")).2.memo.Reachable {} :=
    (Recording.solveUpTo 2 _ "x").reachable hmemo
      ((solve_performs hsession.consistent handle "x").run_eq (Prod.ext hanswer rfl))
  have hf : (Polynomial.overRationals [(0, -2), (2, 1)]).map (algebraMap ℚ ℂ) = X ^ 2 - C 2 := by
    simp [Polynomial.overRationals]
    ring
  have hdenotes := hg.denotesAt (M := Interpretation.complex) (σ := fun _ => 0)
  rw [hf] at hdenotes
  have hzeroth : (X ^ 2 - C 2 : ℂ[X]).coeff 0 = -2 := by simp
  have hfirst : (X ^ 2 - C 2 : ℂ[X]).coeff 1 = 0 := by simp [Polynomial.coeff_X_pow]
  have hsecond : (X ^ 2 - C 2 : ℂ[X]).coeff 2 = 1 := by simp
  obtain ⟨p, _, hp, -, hroots⟩ := solve_roots hsession (Prod.ext hanswer rfl)
  obtain rfl := Except.ok.inj ((congrArg Prod.fst hp).symm.trans hpolynomial)
  obtain ⟨rs, hvalues, hisroot, -, hvieta⟩ := hroots ℂ Interpretation.complex (fun _ => 0) _ hdenotes
    (hsecond.symm ▸ one_ne_zero) fun d hd => by
      have hvalue := hlater.keepsValue hd.find _ (Solve.value_discriminant hdenotes)
      rw [hzeroth, hfirst, hsecond] at hvalue
      exact Solve.exists_value_rootOf (q := 8) (by norm_num) (by rw [hvalue]; norm_num)
  obtain ⟨hsum, hproduct⟩ := hvieta rfl
  rw [hfirst, hsecond] at hsum
  rw [hzeroth, hsecond] at hproduct
  refine ⟨session, _, handle, roots, rs, hsession, Prod.ext hanswer rfl, hvalues, fun r hr => ?_,
    by simpa using hsum, by simpa using hproduct⟩
  simpa [sub_eq_zero] using (hisroot r hr).1

end Session

end ClosedForm
