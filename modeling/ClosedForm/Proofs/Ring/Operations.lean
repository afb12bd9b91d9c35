import ClosedForm.Proofs.Ring.Coefficients
import ClosedForm.Proofs.Value.Complex

/-!
# The ring of polynomials over the rationals

The operations on polynomials whose coefficients are numbers are those of polynomials over the rationals
(`Polynomial.add_ofRing`, `Polynomial.mul_ofRing`, `Polynomial.pow_ofRing`). They fail for no other reason than
that a degree is refused, so `Ends fun _ => exponentBound ≤ d` says of an operation how it ends and that it
succeeds where the degree `d` is below the bound.

An entry is a sum that may vanish on the way, but numbers other than zero are all that is ever kept
(`Polynomial.Numeric`). What is kept adds up to the right values, and these determine the coefficients
(`Polynomial.eq_ofRing`).
-/

open Polynomial (C X)
open scoped Polynomial

namespace ClosedForm

open ClosedForm.Expr Canonical

namespace Polynomial

variable {bounds : Bounds} {p q : Polynomial} {ts : List (Nat × Expr)}

/-! ## Numbers stay numbers -/

theorem Numeric.addAt (h : Numeric ts) (power : Nat) (c : ℚ) :
    Numeric (addAt power (.constant c) ts) := by
  refine ⟨((h.graded "").addAt power (over_constant c)).ascending, ?_⟩
  have hnew (hzero : ¬(Expr.constant c).isZero = true) : ∃ d : ℚ, d ≠ 0 ∧ Expr.constant c = .constant d :=
    ⟨c, by simpa [Expr.isZero] using hzero, rfl⟩
  induction ts with
  | nil =>
    rw [Polynomial.addAt]
    split
    · simp
    · next hzero => simpa using hnew hzero
  | cons s rest ih =>
    obtain ⟨⟨d, hd, hs⟩, -, hrest⟩ := numeric_cons.mp h
    unfold Polynomial.addAt
    split
    · split
      · exact h.number
      · next hzero => exact List.forall_mem_cons.mpr ⟨hnew hzero, h.number⟩
    · split
      · dsimp only
        have hsum : Canonical.add [s.2, .constant c] = .constant (d + c) := by
          rw [hs]
          simpa using add_all_constants [d, c]
        rw [hsum]
        split
        · exact hrest.number
        · next hzero =>
          exact List.forall_mem_cons.mpr ⟨⟨d + c, by simpa [Expr.isZero] using hzero, rfl⟩, hrest.number⟩
      · exact List.forall_mem_cons.mpr ⟨⟨d, hd, hs⟩, ih hrest⟩

theorem Numeric.add (hp : Numeric p.coefficients) (hq : Numeric q.coefficients) :
    Numeric (add p q).coefficients := by
  unfold Polynomial.add
  refine List.foldlRecOn q.coefficients _ hp fun sum hsum t ht => ?_
  obtain ⟨c, -, hc⟩ := hq.number t ht
  rw [hc]
  exact hsum.addAt t.1 c

/-- The products of numbers are numbers. -/
theorem Numeric.ends_addScaled {power d : Nat} (hsum : Numeric ts) (c : ℚ) (hq : Numeric q.coefficients)
    (hpowers : ∀ t ∈ q.coefficients, power + t.1 ≤ d) :
    Ends (fun _ => exponentBound ≤ d) Numeric (addScaled bounds power (.constant c) q ts) := by
  refine .foldlM (fun t ht sum hsum => ?_) hsum
  obtain ⟨e, -, he⟩ := hq.number t ht
  rw [he, multiply_constants]
  show Ends _ _ (addPowers power t.1 >>= _)
  unfold addPowers
  split
  · next hbound => exact hbound.trans (hpowers t ht)
  · exact hsum.addAt _ _

theorem Numeric.ends_mul {d : Nat} (hp : Numeric p.coefficients) (hq : Numeric q.coefficients)
    (hpowers : ∀ s ∈ p.coefficients, ∀ t ∈ q.coefficients, s.1 + t.1 ≤ d) :
    Ends (fun _ => exponentBound ≤ d) (fun r => Numeric r.coefficients) (mul bounds p q) := by
  have hsum : Ends (fun _ => exponentBound ≤ d) Numeric
      (p.coefficients.foldlM (fun sum t => addScaled bounds t.1 t.2 q sum) []) := by
    refine .foldlM (fun t ht sum hsum => ?_) numeric_nil
    obtain ⟨c, -, hc⟩ := hp.number t ht
    rw [hc]
    exact hsum.ends_addScaled c hq (hpowers t ht)
  exact hsum.bind fun r hr => hr

/-! ## Operations of the ring -/

theorem valueAt_ofRing {K : Type*} [Field K] [CharZero K] {M : Interpretation K} {σ : String → K} (f : ℚ[X])
    (x : K) : valueAt M σ x (ofRing f).coefficients = some ((f.map (algebraMap ℚ K)).eval x) := by
  have hrepresents := (numeric_ofRing f).represents
  rw [toRing_ofRing] at hrepresents
  exact valueAt_eq_eval (numeric_ofRing f).ascending hrepresents.denotesAt x

/-- Values determine coefficients that are numbers. -/
theorem eq_ofRing (h : Numeric p.coefficients) {f : ℚ[X]}
    (hvalue : ∀ x, valueAt Interpretation.complex (fun _ => 0) x p.coefficients =
      some ((f.map (algebraMap ℚ ℂ)).eval x)) : p = ofRing f := by
  have hsame : p.toRing = f := by
    refine Polynomial.map_injective _ (algebraMap ℚ ℂ).injective (Polynomial.funext fun x => ?_)
    have hx := hvalue x
    rw [← h.ofRing_toRing, valueAt_ofRing] at hx
    exact Option.some.inj hx
  rw [← hsame, h.ofRing_toRing]

theorem add_ofRing (f g : ℚ[X]) : add (ofRing f) (ofRing g) = ofRing (f + g) := by
  refine eq_ofRing ((numeric_ofRing f).add (numeric_ofRing g)) fun x => ?_
  rw [valueAt_add (valueAt_ofRing f x) (valueAt_ofRing g x), Polynomial.map_add, Polynomial.eval_add]

theorem le_natDegree_of_mem {f : ℚ[X]} {t : Nat × Expr} (ht : t ∈ (ofRing f).coefficients) :
    t.1 ≤ f.natDegree := by
  obtain ⟨k, hk, rfl⟩ := List.mem_map.mp ht
  exact Polynomial.le_natDegree_of_mem_supp k ((Finset.mem_sort _).mp hk)

/-- The product of two polynomials is that of the ring, unless a power in it is refused. -/
theorem ends_mul_ofRing (bounds : Bounds) (f g : ℚ[X]) :
    Ends (fun _ => exponentBound ≤ f.natDegree + g.natDegree) (· = ofRing (f * g))
      (mul bounds (ofRing f) (ofRing g)) := by
  have hnumbers : Ends (fun _ => exponentBound ≤ f.natDegree + g.natDegree) _
      (mul bounds (ofRing f) (ofRing g)) :=
    (numeric_ofRing f).ends_mul (numeric_ofRing g) fun s hs t ht =>
      Nat.add_le_add (le_natDegree_of_mem hs) (le_natDegree_of_mem ht)
  have hvalue (x : ℂ) : Ends _ _ (mul bounds (ofRing f) (ofRing g)) :=
    ends_mul (M := Interpretation.complex) (σ := fun _ => 0) (valueAt_ofRing f x) (valueAt_ofRing g x)
  cases hr : mul bounds (ofRing f) (ofRing g) with
  | error err => rwa [hr] at hnumbers
  | ok r =>
    rw [hr] at hnumbers
    refine eq_ofRing hnumbers fun x => ?_
    rw [Polynomial.map_mul, Polynomial.eval_mul]
    exact Ends.of_eq_ok (hvalue x) hr

theorem mul_ofRing (bounds : Bounds) {f g : ℚ[X]} (h : f.natDegree + g.natDegree < exponentBound) :
    mul bounds (ofRing f) (ofRing g) = .ok (ofRing (f * g)) :=
  (ends_mul_ofRing bounds f g).eq_ok (not_le.mpr h)

theorem ofConstant_eq (c : ℚ) : ofConstant (.constant c) = ofRing (C c) := by
  have hnumeric : Numeric (ofConstant (.constant c)).coefficients := by
    unfold ofConstant
    dsimp only
    split
    · exact numeric_nil
    · next hzero => exact numeric_cons.mpr ⟨⟨c, by simpa [Expr.isZero] using hzero, rfl⟩, by simp, numeric_nil⟩
  refine eq_ofRing hnumeric fun x => ?_
  rw [valueAt_ofConstant (Interpretation.value_constant c)]
  simp

theorem monomial_eq (n : Nat) : monomial n = ofRing (X ^ n) := by
  have hnumeric : Numeric (monomial n).coefficients :=
    numeric_cons.mpr ⟨⟨1, one_ne_zero, rfl⟩, by simp, numeric_nil⟩
  refine eq_ofRing hnumeric fun x => ?_
  rw [valueAt_monomial]
  simp

/-- A power of a polynomial is that of the ring, unless a power in it is refused. -/
theorem ends_pow_ofRing (bounds : Bounds) (f : ℚ[X]) (n : Nat) :
    Ends (fun _ => exponentBound ≤ n * f.natDegree) (· = ofRing (f ^ n)) (pow bounds (ofRing f) n) := by
  have hmul {p q : Polynomial} {g h : ℚ[X]} (hp : p = ofRing g) (hq : q = ofRing h)
      (hlimit : g.natDegree + h.natDegree ≤ n * f.natDegree) :
      Ends (fun _ => exponentBound ≤ n * f.natDegree) (· = ofRing (g * h)) (mul bounds p q) := by
    rw [hp, hq]
    exact (ends_mul_ofRing bounds g h).mono fun _ hbound => hbound.trans hlimit
  have hone : ofConstant .one = ofRing 1 := (ofConstant_eq 1).trans (by rw [Polynomial.C_1])
  exact ends_pow_of_mul (R := fun p f => p = ofRing f) Polynomial.natDegree (n * f.natDegree)
    (fun _ _ => Polynomial.natDegree_mul_le) hmul hone Polynomial.natDegree_one n rfl le_rfl

theorem pow_ofRing (bounds : Bounds) {f : ℚ[X]} {n : Nat} (h : n * f.natDegree < exponentBound) :
    pow bounds (ofRing f) n = .ok (ofRing (f ^ n)) :=
  (ends_pow_ofRing bounds f n).eq_ok (not_le.mpr h)

/-! ## Sums and products of several polynomials -/

theorem foldl_add_ofRing (g : ℚ[X]) (fs : List ℚ[X]) :
    (fs.map ofRing).foldl add (ofRing g) = ofRing (g + fs.sum) := by
  induction fs generalizing g with
  | nil => rw [List.map_nil, List.foldl_nil, List.sum_nil, add_zero]
  | cons f fs ih => rw [List.map_cons, List.foldl_cons, add_ofRing, ih, List.sum_cons, add_assoc]

theorem ends_foldlM_mul_ofRing (bounds : Bounds) (g : ℚ[X]) (fs : List ℚ[X]) :
    Ends (fun _ => exponentBound ≤ g.natDegree + (fs.map Polynomial.natDegree).sum)
      (· = ofRing (g * fs.prod)) ((fs.map ofRing).foldlM (mul bounds) (ofRing g)) := by
  induction fs generalizing g with
  | nil =>
    rw [List.map_nil, List.map_nil, List.foldlM_nil, List.prod_nil, mul_one]
    rfl
  | cons f fs ih =>
    rw [List.map_cons, List.map_cons, List.foldlM_cons, List.sum_cons, List.prod_cons, ← mul_assoc]
    refine ((ends_mul_ofRing bounds g f).mono fun _ hbound => by omega).bind ?_
    rintro _ rfl
    have hproduct := Polynomial.natDegree_mul_le (p := g) (q := f)
    exact (ih (g * f)).mono fun _ hbound => by omega

end Polynomial

end ClosedForm
