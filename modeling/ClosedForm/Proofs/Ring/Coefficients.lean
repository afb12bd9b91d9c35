import ClosedForm.Proofs.Value.Polynomials
import ClosedForm.Proofs.Weight.Powers
import Mathlib.Algebra.Polynomial.BigOperators
import Mathlib.Algebra.Polynomial.EraseLead
import Mathlib.Data.Finset.Sort

/-!
# Rational coefficients

A polynomial with rational coefficients is one over the rationals (`Polynomial.overRationals`), with
the same coefficients and the same degree (`Polynomial.Represents`).

`Polynomial.Numeric` says that all coefficients are numbers other than zero. Such polynomials and those over
the rationals determine each other: `Polynomial.toRing` and `Polynomial.ofRing` are inverse.
-/

open Polynomial (C X)
open scoped Polynomial

namespace ClosedForm

open ClosedForm.Expr Canonical

namespace Polynomial

/-! ## Polynomials over the rationals -/

/-- The polynomial over the rationals with the coefficients. -/
noncomputable def overRationals (qs : List (Nat × Rat)) : ℚ[X] :=
  (qs.map fun t => C t.2 * X ^ t.1).sum

theorem coeff_overRationals {qs : List (Nat × Rat)} (h : qs.Pairwise fun s t => s.1 < t.1) (k : Nat) :
    (overRationals qs).coeff k = (qs.lookup k).getD 0 := by
  induction qs with
  | nil => simp [overRationals]
  | cons t qs ih =>
    obtain ⟨hlt, hqs⟩ := List.pairwise_cons.mp h
    have hcons : overRationals (t :: qs) = C t.2 * X ^ t.1 + overRationals qs := by
      simp [overRationals]
    rw [hcons, Polynomial.coeff_add, Polynomial.coeff_C_mul_X_pow, ih hqs, List.lookup_cons]
    by_cases hk : k = t.1
    · have hnone : qs.lookup k = none := by
        rw [List.lookup_eq_none_iff]
        intro s hs
        have := hlt s hs
        simp
        omega
      rw [if_pos hk, beq_iff_eq.mpr hk, hnone, Option.getD_none, add_zero]
      rfl
    · rw [if_neg hk, beq_eq_false_iff_ne.mpr hk, zero_add]

/-- The last coefficient is the leading one. -/
theorem coeff_last {front : List (Nat × Rat)} {last : Nat × Rat}
    (h : (front ++ [last]).Pairwise fun s t => s.1 < t.1) (hne : last.2 ≠ 0) :
    (overRationals (front ++ [last])).coeff last.1 ≠ 0 ∧
      ∀ k > last.1, (overRationals (front ++ [last])).coeff k = 0 := by
  have hbelow : ∀ t ∈ front, t.1 < last.1 := fun t ht =>
    (List.pairwise_append.mp h).2.2 t ht last (by simp)
  have hnone : ∀ k ≥ last.1, front.lookup k = none := fun k hk =>
    lookup_eq_none fun t ht => ((hbelow t ht).trans_le hk).ne
  obtain ⟨power, c⟩ := last
  constructor
  · rw [coeff_overRationals h, List.lookup_append, hnone _ le_rfl]
    simpa [List.lookup_cons] using hne
  · intro k hk
    rw [coeff_overRationals h, List.lookup_append, hnone _ hk.le]
    simp [List.lookup_cons, beq_eq_false_iff_ne.mpr hk.ne']

theorem coefficients_of_rational? {p : Polynomial} {qs : List (Nat × Rat)}
    (h : p.rational? = some qs) : p.coefficients = qs.map fun t => (t.1, .constant t.2) := by
  unfold rational? at h
  generalize p.coefficients = ts at h
  induction ts generalizing qs with
  | nil =>
    cases h
    rfl
  | cons t ts ih =>
    simp only [List.mapM_cons, Option.bind_eq_bind, Option.bind_eq_some_iff, Option.map_eq_some_iff,
      Option.pure_def, Option.some.injEq] at h
    obtain ⟨_, ⟨value, hvalue, rfl⟩, rest, hrest, rfl⟩ := h
    obtain ⟨power, c⟩ := t
    obtain rfl : c = .constant value := constant?_eq_some.mp hvalue
    rw [List.map_cons, ← ih hrest]

/-- A polynomial over the rationals with the coefficients of a polynomial in a symbol. -/
structure Represents (p : Polynomial) (f : ℚ[X]) : Prop where
  coefficient : ∀ k, p.coefficient k = .constant (f.coeff k)
  degree : p.degree?.getD 0 = f.natDegree
  isZero : p.isZero = true ↔ f = 0

theorem coefficient_of_rational? {p : Polynomial} {qs : List (Nat × Rat)}
    (h : p.rational? = some qs) (k : Nat) : p.coefficient k = .constant ((qs.lookup k).getD 0) := by
  rw [Polynomial.coefficient, coefficients_of_rational? h]
  clear h
  induction qs with
  | nil => rfl
  | cons t qs ih =>
    rw [List.map_cons, List.lookup_cons, List.lookup_cons]
    split
    · rfl
    · exact ih

theorem represents_overRationals {p : Polynomial} {qs : List (Nat × Rat)} {name : String}
    (hgraded : Graded name p.coefficients) (hne : ∀ t ∈ p.coefficients, t.2.isZero = false)
    (h : p.rational? = some qs) : Represents p (overRationals qs) := by
  have hcoefficients := coefficients_of_rational? h
  have hascending : qs.Pairwise fun s t => s.1 < t.1 := by
    have := hgraded.ascending
    rwa [hcoefficients, List.pairwise_map] at this
  have hvalues : ∀ t ∈ qs, t.2 ≠ 0 := by
    intro t ht hzero
    have := hne (t.1, .constant t.2) (hcoefficients ▸ List.mem_map_of_mem ht)
    simp [Expr.isZero, hzero] at this
  refine ⟨fun k => ?_, ?_, ?_⟩
  · rw [coeff_overRationals hascending, coefficient_of_rational? h]
  all_goals rcases List.eq_nil_or_concat' qs with rfl | ⟨front, last, rfl⟩
  · simp [degree?, hcoefficients, overRationals]
  · have hlast := coeff_last hascending (hvalues last (by simp))
    have hdegree : p.degree?.getD 0 = last.1 := by
      unfold degree?
      rw [hcoefficients, List.map_append, List.map_singleton, List.getLast?_concat]
      rfl
    rw [hdegree]
    exact (Polynomial.natDegree_eq_of_le_of_coeff_ne_zero
      (Polynomial.natDegree_le_iff_coeff_eq_zero.mpr hlast.2) hlast.1).symm
  · simp [Polynomial.isZero, hcoefficients, overRationals]
  · have hlast := coeff_last hascending (hvalues last (by simp))
    refine iff_of_false (by simp [Polynomial.isZero, hcoefficients]) fun hzero => ?_
    rw [hzero] at hlast
    exact hlast.1 (Polynomial.coeff_zero _)

/-! ## Coefficient maps -/

/-- Rational numbers other than zero by ascending powers. -/
structure Numeric (coefficients : List (Nat × Expr)) : Prop where
  ascending : coefficients.Pairwise fun s t => s.1 < t.1
  number : ∀ t ∈ coefficients, ∃ c : ℚ, c ≠ 0 ∧ t.2 = .constant c

/-- The polynomial over the rationals with the coefficients that are numbers. -/
noncomputable def toRing (p : Polynomial) : ℚ[X] :=
  overRationals (p.coefficients.map fun t => (t.1, constantValue t.2))

/-- The coefficients other than zero of a polynomial over the rationals. -/
noncomputable def ofRing (f : ℚ[X]) : Polynomial :=
  ⟨(f.support.sort (· ≤ ·)).map fun k => (k, .constant (f.coeff k))⟩

theorem numeric_ofRing (f : ℚ[X]) : Numeric (ofRing f).coefficients where
  ascending := List.pairwise_map.mpr (Finset.sortedLT_sort f.support).pairwise
  number := by
    refine List.forall_mem_map.mpr fun k hk => ⟨f.coeff k, ?_, rfl⟩
    rwa [Finset.mem_sort, Polynomial.mem_support_iff] at hk

theorem numeric_nil : Numeric [] := ⟨.nil, by simp⟩

theorem numeric_cons {t : Nat × Expr} {ts : List (Nat × Expr)} :
    Numeric (t :: ts) ↔
      (∃ c : ℚ, c ≠ 0 ∧ t.2 = .constant c) ∧ (∀ s ∈ ts, t.1 < s.1) ∧ Numeric ts := by
  constructor
  · rintro ⟨hascending, hnumber⟩
    obtain ⟨hlt, hascending⟩ := List.pairwise_cons.mp hascending
    obtain ⟨ht, hnumber⟩ := List.forall_mem_cons.mp hnumber
    exact ⟨ht, hlt, hascending, hnumber⟩
  · rintro ⟨ht, hlt, hascending, hnumber⟩
    exact ⟨.cons hlt hascending, List.forall_mem_cons.mpr ⟨ht, hnumber⟩⟩

namespace Numeric

variable {p q : Polynomial}

/-- Numbers are free of symbols. -/
theorem graded {ts : List (Nat × Expr)} (h : Numeric ts) (name : String) : Graded name ts where
  ascending := h.ascending
  free t ht := by
    obtain ⟨c, -, hc⟩ := h.number t ht
    rw [hc]
    exact over_constant c

theorem represents (h : Numeric p.coefficients) : p.Represents p.toRing := by
  refine represents_overRationals (h.graded "") (fun t ht => ?_) ?_
  · obtain ⟨c, hc, heq⟩ := h.number t ht
    simpa [heq, Expr.isZero] using hc
  · unfold rational?
    generalize p.coefficients = ts at h
    induction ts with
    | nil => rfl
    | cons t ts ih =>
      obtain ⟨⟨c, -, hc⟩, -, hts⟩ := numeric_cons.mp h
      rw [List.mapM_cons, ih hts]
      simp [hc, constant?, constantValue]

/-- The entries are the coefficients other than zero. -/
theorem mem_iff (h : Numeric p.coefficients) {t : Nat × Expr} :
    t ∈ p.coefficients ↔ p.coefficient t.1 = t.2 ∧ t.2 ≠ .zero := by
  constructor
  · intro ht
    obtain ⟨front, back, heq⟩ := List.append_of_mem ht
    obtain ⟨c, hc, hconstant⟩ := h.number t ht
    have hfront : ∀ s ∈ front, s.1 ≠ t.1 := fun s hs =>
      ((List.pairwise_append.mp (heq ▸ h.ascending)).2.2 s hs t (by simp)).ne
    refine ⟨?_, ?_⟩
    · rw [coefficient, heq, List.lookup_append, lookup_eq_none hfront, List.lookup_cons, beq_self_eq_true]
      rfl
    · rw [hconstant]
      simpa [Expr.zero] using hc
  · rintro ⟨hcoefficient, hzero⟩
    unfold coefficient at hcoefficient
    cases hlookup : p.coefficients.lookup t.1 with
    | none =>
      rw [hlookup] at hcoefficient
      exact absurd hcoefficient.symm hzero
    | some c =>
      rw [hlookup] at hcoefficient
      obtain ⟨front, back, heq, -⟩ := List.lookup_eq_some_iff.mp hlookup
      have ht : t = (t.1, c) := Prod.ext rfl hcoefficient.symm
      rw [heq, ht]
      simp

/-- The coefficients determine the polynomial. -/
theorem ext (hp : Numeric p.coefficients) (hq : Numeric q.coefficients)
    (h : ∀ k, p.coefficient k = q.coefficient k) : p = q := by
  have hnodup {ts : List (Nat × Expr)} (hts : Numeric ts) : ts.Nodup :=
    hts.ascending.imp fun hlt heq => (heq ▸ hlt).false
  have hperm : p.coefficients.Perm q.coefficients := by
    rw [List.perm_ext_iff_of_nodup (hnodup hp) (hnodup hq)]
    intro t
    rw [hp.mem_iff, hq.mem_iff, h]
  have hcoefficients : p.coefficients = q.coefficients :=
    hperm.eq_of_pairwise (fun s t _ _ hst hts => absurd hst hts.not_gt) hp.ascending hq.ascending
  cases p
  cases q
  exact congrArg Polynomial.mk hcoefficients

end Numeric

theorem coefficient_ofRing (f : ℚ[X]) (k : Nat) : (ofRing f).coefficient k = .constant (f.coeff k) := by
  by_cases hk : f.coeff k = 0
  · have hnone : (ofRing f).coefficients.lookup k = none := by
      refine lookup_eq_none (List.forall_mem_map.mpr fun j hj => ?_)
      rw [Finset.mem_sort, Polynomial.mem_support_iff] at hj
      rintro rfl
      exact hj hk
    rw [coefficient, hnone, hk]
    rfl
  · have hmem : (k, .constant (f.coeff k)) ∈ (ofRing f).coefficients := by
      refine List.mem_map_of_mem ?_
      rwa [Finset.mem_sort, Polynomial.mem_support_iff]
    exact ((numeric_ofRing f).mem_iff.mp hmem).1

@[simp] theorem toRing_ofRing (f : ℚ[X]) : (ofRing f).toRing = f := by
  ext k
  have hcoefficient := (numeric_ofRing f).represents.coefficient k
  rw [coefficient_ofRing] at hcoefficient
  exact (Expr.constant.inj hcoefficient).symm

theorem Numeric.ofRing_toRing {p : Polynomial} (h : Numeric p.coefficients) : ofRing p.toRing = p :=
  (numeric_ofRing _).ext h fun k => by rw [coefficient_ofRing, h.represents.coefficient]

/-- The powers of the polynomial over the rationals are those of the entries. -/
theorem Numeric.exists_of_mem_support {p : Polynomial} (h : Numeric p.coefficients) {k : Nat}
    (hk : k ∈ p.toRing.support) : ∃ t ∈ p.coefficients, t.1 = k := by
  refine ⟨(k, .constant (p.toRing.coeff k)), ?_, rfl⟩
  rw [← h.ofRing_toRing, toRing_ofRing]
  exact List.mem_map_of_mem ((Finset.mem_sort _).mpr hk)

/-- A polynomial has the degree of the one that it represents. -/
theorem Represents.degree?_eq_some_iff {p : Polynomial} {f : ℚ[X]} (h : p.Represents f) {d : Nat} :
    p.degree? = some d ↔ f ≠ 0 ∧ f.natDegree = d := by
  have hdegree := h.degree
  have hzero : p.degree? = none ↔ f = 0 := by
    rw [← h.isZero]
    simp [degree?, Polynomial.isZero]
  cases hd : p.degree? with
  | none => simp [hzero.mp hd]
  | some e =>
    rw [hd] at hdegree
    have hne : f ≠ 0 := fun hf => by simp [hzero.mpr hf] at hd
    simpa [hne] using Eq.congr_left hdegree

/-! ## Values -/

section Values

variable {K : Type*} [Field K] [CharZero K] {M : Interpretation K} {σ : String → K}

/-- The coefficients have values at the assignment, which are those of a polynomial over the field. -/
def DenotesAt (M : Interpretation K) (σ : String → K) (p : Polynomial) (f : K[X]) : Prop :=
  ∀ k, M.value σ (p.coefficient k) = some (f.coeff k)

/-- Ascending coefficients with the values of a polynomial over the field add up to the values of that
polynomial. -/
theorem valueAt_eq_eval {ts : List (Nat × Expr)} (hts : ts.Pairwise fun s t => s.1 < t.1) {f : K[X]}
    (h : ∀ k, M.value σ ((ts.lookup k).getD .zero) = some (f.coeff k)) (x : K) :
    valueAt M σ x ts = some (f.eval x) := by
  induction ts generalizing f with
  | nil =>
    have hzero : f = 0 := by
      ext k
      exact Option.some.inj ((h k).symm.trans Interpretation.value_zero)
    simp [hzero, valueAt]
  | cons t ts ih =>
    obtain ⟨power, c⟩ := t
    obtain ⟨hlt, hts⟩ := List.pairwise_cons.mp hts
    have hc : M.value σ c = some (f.coeff power) := by simpa using h power
    have hrest (k : Nat) : M.value σ ((ts.lookup k).getD .zero) = some ((f.erase power).coeff k) := by
      by_cases hk : k = power
      · rw [lookup_eq_none fun s hs => hk ▸ (hlt s hs).ne', hk, Polynomial.erase_same]
        exact Interpretation.value_zero
      · rw [Polynomial.erase_ne f hk, ← h k, List.lookup_cons, beq_eq_false_iff_ne.mpr hk]
    refine valueAt_cons_eq_some.mpr ⟨_, _, hc, ih hts hrest, ?_⟩
    conv_rhs => rw [← Polynomial.monomial_add_erase f power, Polynomial.eval_add,
      Polynomial.eval_monomial]

/-- Rational coefficients have the same values everywhere. -/
theorem Represents.denotesAt {p : Polynomial} {g : ℚ[X]} (h : p.Represents g) :
    p.DenotesAt M σ (g.map (algebraMap ℚ K)) := by
  intro k
  rw [h.coefficient, Interpretation.value_constant, Polynomial.coeff_map, eq_ratCast]

theorem DenotesAt.natDegree_le {p : Polynomial} {f : K[X]} (h : p.DenotesAt M σ f)
    (hascending : p.coefficients.Pairwise fun s t => s.1 < t.1) :
    f.natDegree ≤ p.degree?.getD 0 := by
  refine Polynomial.natDegree_le_iff_coeff_eq_zero.mpr fun k hk => ?_
  have hnone : p.coefficients.lookup k = none := lookup_eq_none fun t ht =>
    ((le_of_degree hascending le_rfl t ht).trans_lt hk).ne
  have hvalue := h k
  rw [Polynomial.coefficient, hnone] at hvalue
  exact Option.some.inj (hvalue.symm.trans Interpretation.value_zero)

/-- What the symbol stands for does not matter for coefficients that are free of it. -/
theorem DenotesAt.update {name : String} {p : Polynomial} {f : K[X]} (h : p.DenotesAt M σ f)
    (hfree : ∀ t ∈ p.coefficients, Over (· ≠ name) t.2) (x : K) :
    p.DenotesAt M (Function.update σ name x) f := by
  intro k
  rw [← h k]
  refine Interpretation.value_congr fun other hother => (Function.update_of_ne ?_ x σ).symm
  unfold coefficient at hother
  cases hlookup : p.coefficients.lookup k with
  | none => simp [hlookup, Expr.zero, contains, recurse] at hother
  | some c =>
    rw [hlookup] at hother
    obtain ⟨front, back, heq, -⟩ := List.lookup_eq_some_iff.mp hlookup
    exact hfree (k, c) (by simp [heq]) other hother

end Values

end Polynomial

end ClosedForm
