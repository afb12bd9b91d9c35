import ClosedForm.Rational.Root
import Mathlib.Data.Nat.Squarefree
import Mathlib.Tactic.GCongr
import Mathlib.Tactic.Ring

/-!
# Square factors

Extracting square factors gives the number back (`extractSquares_spec`). The candidates are `2` and
the odd numbers; once a candidate was tried its square divides nothing that is left (`SquareFree`, a
statement about candidates only), which later divisions and the early end of the search keep
(`squareFree_extractFrom`). So no square of any number within the bound is left
(`not_sq_dvd_extractSquares`), and from what is left nothing more is extracted
(`extractSquares_extractSquares`).

The loops of `Extraction` have no bound on the number of their steps. They end with the same result
(`Extraction.extractSquares_eq`).
-/

namespace ClosedForm.Rational

/-! ## What is extracted -/

theorem divideSquare_eq {p fuel outside inside : Nat} :
    (divideSquare p fuel outside inside).1 * (divideSquare p fuel outside inside).1 *
      (divideSquare p fuel outside inside).2 = outside * outside * inside := by
  induction fuel generalizing outside inside with
  | zero => rfl
  | succ fuel ih =>
    rw [divideSquare]
    split
    · next hdvd =>
      rw [ih]
      have hinside := Nat.div_mul_cancel (Nat.dvd_of_mod_eq_zero hdvd)
      conv_rhs => rw [← hinside]
      ring
    · rfl

theorem extractFrom_eq (fuel p outside inside : Nat) :
    (extractFrom fuel p outside inside).1 * (extractFrom fuel p outside inside).1 *
      (extractFrom fuel p outside inside).2 = outside * outside * inside := by
  induction fuel generalizing p outside inside with
  | zero => rfl
  | succ fuel ih =>
    rw [extractFrom]
    split
    · rfl
    · rw [ih, divideSquare_eq]

/-- The square factor and the rest of a positive number are positive and give it back. -/
theorem extractSquares_spec {v : Int} (hv : 0 < v) :
    0 < (extractSquares v).1 ∧ 0 < (extractSquares v).2 ∧
      ((extractSquares v).1 : Int) * (extractSquares v).1 * (extractSquares v).2 = v := by
  unfold extractSquares
  rw [if_neg (by omega)]
  have heq := extractFrom_eq squareBound 2 1 v.natAbs
  generalize extractFrom squareBound 2 1 v.natAbs = result at heq
  obtain ⟨outside, inside⟩ := result
  simp only [one_mul] at heq ⊢
  have hpos : 0 < outside * outside * inside := by omega
  have hout : 0 < outside := Nat.pos_of_ne_zero (by rintro rfl; simp at hpos)
  have hin : 0 < inside := Nat.pos_of_ne_zero (by rintro rfl; simp at hpos)
  refine ⟨hout, by exact_mod_cast hin, ?_⟩
  have hcast : ((outside * outside * inside : Nat) : Int) = v := by rw [heq]; omega
  exact_mod_cast hcast

/-! ## What is left -/

/-- No candidate for a square factor leaves a square factor. Candidates are `2` and the odd
numbers after it, from `first` up to the bound. -/
def SquareFree (first inside : Nat) : Prop :=
  ∀ p, 2 ≤ p → p < first → p ≤ squareBound → (p = 2 ∨ p % 2 = 1) → ¬ p * p ∣ inside

theorem SquareFree.of_dvd {first v w : Nat} (h : SquareFree first v) (hdvd : w ∣ v) :
    SquareFree first w :=
  fun p h2 hlt hbound hodd hp => h p h2 hlt hbound hodd (hp.trans hdvd)

/-- Where the candidates leave no square factor, no number within the bound does. -/
theorem SquareFree.not_sq_dvd {inside : Nat} (h : SquareFree (squareBound + 1) inside) {m : Nat}
    (htwo : 2 ≤ m) (hm : m ≤ squareBound) : ¬ m * m ∣ inside := by
  rcases Nat.even_or_odd m with heven | hodd
  · -- The square of an even number has the square of two as a factor.
    intro hdvd
    have hsquare := mul_dvd_mul heven.two_dvd heven.two_dvd
    exact h 2 le_rfl (by decide) (by decide) (.inl rfl) (hsquare.trans hdvd)
  · exact h m htwo (by omega) hm (.inr (Nat.odd_iff.mp hodd))

theorem divideSquare_dvd (p fuel outside inside : Nat) :
    (divideSquare p fuel outside inside).2 ∣ inside := by
  induction fuel generalizing outside inside with
  | zero => exact dvd_rfl
  | succ fuel ih =>
    rw [divideSquare]
    split
    · next hmod => exact (ih _ _).trans (Nat.div_dvd_of_dvd (Nat.dvd_of_mod_eq_zero hmod))
    · exact dvd_rfl

/-- A division by a square takes at least one bit. -/
theorem div_square_lt {p bits inside : Nat} (hp : 2 ≤ p) (hpos : 0 < inside)
    (hbits : inside < 2 ^ (bits + 1)) (hdvd : p * p ∣ inside) :
    0 < inside / (p * p) ∧ inside / (p * p) < 2 ^ bits := by
  have hsquare : 2 ≤ p * p := hp.trans (Nat.le_mul_self p)
  refine ⟨Nat.div_pos (Nat.le_of_dvd hpos hdvd) (by omega), ?_⟩
  rw [Nat.div_lt_iff_lt_mul (by omega)]
  calc inside < 2 ^ bits * 2 := by rw [← pow_succ]; exact hbits
    _ ≤ 2 ^ bits * (p * p) := Nat.mul_le_mul_left _ hsquare

/-- With fuel for all the bits of the number, dividing stops where the square is no divisor. -/
theorem not_dvd_divideSquare {p fuel outside inside : Nat} (hp : 2 ≤ p) (hpos : 0 < inside)
    (hfuel : inside < 2 ^ fuel) : ¬ p * p ∣ (divideSquare p fuel outside inside).2 := by
  induction fuel generalizing outside inside with
  | zero => omega
  | succ fuel ih =>
    rw [divideSquare]
    split
    · next hmod =>
      obtain ⟨hleft, hlt⟩ := div_square_lt hp hpos hfuel (Nat.dvd_of_mod_eq_zero hmod)
      exact ih hleft hlt
    · next hmod => exact fun hdvd => hmod (Nat.mod_eq_zero_of_dvd hdvd)

theorem divideSquare_of_not_dvd {p fuel outside inside : Nat} (h : ¬ p * p ∣ inside) :
    divideSquare p fuel outside inside = (outside, inside) := by
  cases fuel with
  | zero => rfl
  | succ fuel => rw [divideSquare, if_neg fun hmod => h (Nat.dvd_of_mod_eq_zero hmod)]

/-- The candidate after `p`. -/
def nextCandidate (p : Nat) : Nat :=
  if p = 2 then 3 else p + 2

theorem SquareFree.next {p inside : Nat} (h : SquareFree p inside) (h2 : 2 ≤ p)
    (hp : p = 2 ∨ p % 2 = 1) (hdvd : ¬ p * p ∣ inside) : SquareFree (nextCandidate p) inside := by
  intro q hq2 hlt hbound hodd
  rcases Nat.lt_trichotomy q p with hqp | rfl | hpq
  · exact h q hq2 hqp hbound hodd
  · exact hdvd
  · -- Between a candidate and the next one there is none.
    unfold nextCandidate at hlt
    split at hlt <;> omega

/-- What is left inside after all candidates were tried has no square factor that they find. -/
theorem squareFree_extractFrom {fuel p outside inside : Nat} (hpos : 0 < inside) (h2 : 2 ≤ p)
    (hp : p = 2 ∨ p % 2 = 1) (hfuel : squareBound < p + fuel) (h : SquareFree p inside) :
    SquareFree (squareBound + 1) (extractFrom fuel p outside inside).2 := by
  induction fuel generalizing p outside inside with
  | zero =>
    intro q hq2 hqlt
    exact h q hq2 (by omega)
  | succ fuel ih =>
    rw [extractFrom]
    split
    · next hstop =>
      simp only [Bool.or_eq_true, decide_eq_true_eq] at hstop
      intro q hq2 hqlt hbound hodd hdvd
      rcases hstop with hstop | hstop
      · exact h q hq2 (by omega) hbound hodd hdvd
      · by_cases hqp : q < p
        · exact h q hq2 hqp hbound hodd hdvd
        · have := Nat.le_of_dvd hpos hdvd
          have := Nat.mul_le_mul (not_lt.mp hqp) (not_lt.mp hqp)
          omega
    · have hdvd := divideSquare_dvd p (inside.log2 + 1) outside inside
      have hnot : ¬ p * p ∣ (divideSquare p (inside.log2 + 1) outside inside).2 :=
        not_dvd_divideSquare h2 hpos Nat.lt_log2_self
      refine ih (Nat.pos_of_dvd_of_pos hdvd hpos) ?_ ?_ ?_ ((h.of_dvd hdvd).next h2 hp hnot)
      · split <;> omega
      · split <;> omega
      · split <;> omega

/-- From a number without square factors nothing is extracted. -/
theorem extractFrom_of_squareFree {fuel p outside inside : Nat} (h2 : 2 ≤ p)
    (hp : p = 2 ∨ p % 2 = 1) (h : SquareFree (squareBound + 1) inside) :
    extractFrom fuel p outside inside = (outside, inside) := by
  induction fuel generalizing p with
  | zero => rfl
  | succ fuel ih =>
    rw [extractFrom]
    split
    · rfl
    · next hgo =>
      simp only [Bool.or_eq_true, decide_eq_true_eq, not_or, not_lt] at hgo
      rw [divideSquare_of_not_dvd (h p h2 (by omega) hgo.1 hp)]
      dsimp only
      exact ih (by split <;> omega) (by split <;> omega)

/-- What is left of a number has no square factor that a candidate finds. -/
theorem squareFree_extractSquares {v : Int} (hv : 0 < v) :
    SquareFree (squareBound + 1) (extractSquares v).2.natAbs := by
  unfold extractSquares
  rw [if_neg (by omega)]
  exact squareFree_extractFrom (by omega) le_rfl (.inl rfl) (by decide) fun q hq2 hlt => by omega

/-- The square of no number within the bound divides what is left. -/
theorem not_sq_dvd_extractSquares {v : Int} (hv : 0 < v) {m : Nat} (htwo : 2 ≤ m)
    (hm : m ≤ squareBound) : ¬ (m : Int) ^ 2 ∣ (extractSquares v).2 := by
  have hnot := (squareFree_extractSquares hv).not_sq_dvd htwo hm
  rwa [← pow_two, ← Int.natCast_dvd, Nat.cast_pow] at hnot

/-- Square factors are extracted at once: from what is left inside nothing more is. -/
theorem extractSquares_extractSquares {v : Int} (hv : 0 < v) :
    extractSquares (extractSquares v).2 = (1, (extractSquares v).2) := by
  have hpos := (extractSquares_spec hv).2.1
  have hfree := squareFree_extractSquares hv
  generalize (extractSquares v).2 = inside at *
  unfold extractSquares
  rw [if_neg (by omega), extractFrom_of_squareFree le_rfl (.inl rfl) hfree]
  dsimp only
  rw [Int.natAbs_of_nonneg hpos.le]

/-- If the number has no squares of primes beyond the bound, nothing square is left. -/
theorem squarefree_inside {v : Int} (hv : 0 < v)
    (hprimes : ∀ p : Nat, p.Prime → (p : Int) ^ 2 ∣ v → p ≤ squareBound) :
    Squarefree (extractSquares v).2 := by
  rw [← Int.squarefree_natAbs, Nat.squarefree_iff_prime_squarefree]
  intro p hp hdvd
  rw [← pow_two, ← Int.natCast_dvd, Nat.cast_pow] at hdvd
  have hv' : (p : Int) ^ 2 ∣ v := by
    rw [← (extractSquares_spec hv).2.2]
    exact hdvd.mul_left _
  exact not_sq_dvd_extractSquares hv hp.two_le (hprimes p hp hv') hdvd

/-! ## Loops without a bound -/

/-- The square factors found so far and what is left. -/
structure Extraction where
  outside : Nat
  inside : Nat

namespace Extraction

/-- Moves factors `p * p` outside as long as there are any. Divisions without end have no result. -/
def divideSquare (found : Extraction) (p : Nat) : Option Extraction :=
  if found.inside % (p * p) = 0 then
    { outside := found.outside * p, inside := found.inside / (p * p) : Extraction } |>.divideSquare p
  else some found
partial_fixpoint

/-- Tries `p` and then the odd numbers after it up to `squareBound`, and stops where `p * p` exceeds
what is left inside. -/
def extractFrom (found : Extraction) (p : Nat) : Option Extraction :=
  if squareBound < p || found.inside < p * p then some found
  else do
    let divided ← found.divideSquare p
    divided |>.extractFrom (nextCandidate p)
partial_fixpoint

/-- The square factor of a positive number and what is left. -/
def extractSquares (v : Int) : Option (Nat × Int) :=
  if v ≤ 0 then some (1, v)
  else do
    let found ← { outside := 1, inside := v.natAbs : Extraction }.extractFrom 2
    return (found.outside, found.inside)

def ofPair (pair : Nat × Nat) : Extraction :=
  { outside := pair.1, inside := pair.2 }

/-- Fuel for all the bits of the number is never used up. -/
theorem divideSquare_eq {found : Extraction} {p fuel : Nat} (hp : 2 ≤ p) (hpos : 0 < found.inside)
    (hfuel : found.inside < 2 ^ fuel) :
    found.divideSquare p =
      some (ofPair (Rational.divideSquare p fuel found.outside found.inside)) := by
  induction fuel generalizing found with
  | zero => omega
  | succ fuel ih =>
    rw [divideSquare, Rational.divideSquare]
    split
    · next hmod =>
      obtain ⟨hleft, hlt⟩ := div_square_lt hp hpos hfuel (Nat.dvd_of_mod_eq_zero hmod)
      exact ih hleft hlt
    · rfl

/-- Fuel for all the candidates up to the bound is never used up. -/
theorem extractFrom_eq {found : Extraction} {p fuel : Nat} (hp : 2 ≤ p) (hpos : 0 < found.inside)
    (hfuel : squareBound < p + fuel) :
    found.extractFrom p =
      some (ofPair (Rational.extractFrom fuel p found.outside found.inside)) := by
  induction fuel generalizing p found with
  | zero =>
    have hstop : squareBound < p := hfuel
    rw [extractFrom, if_pos (by simp [hstop])]
    rfl
  | succ fuel ih =>
    rw [extractFrom, Rational.extractFrom]
    split
    · rfl
    · rw [divideSquare_eq hp hpos Nat.lt_log2_self]
      have hdvd := divideSquare_dvd p (found.inside.log2 + 1) found.outside found.inside
      refine ih ?_ (Nat.pos_of_dvd_of_pos hdvd hpos) ?_
      · unfold nextCandidate
        split <;> omega
      · unfold nextCandidate
        split <;> omega

/-- The loops end on every number, with the result of the loops that the library runs. -/
theorem extractSquares_eq (v : Int) : extractSquares v = some (Rational.extractSquares v) := by
  unfold extractSquares Rational.extractSquares
  split
  · rfl
  · have hpos : 0 < v.natAbs := by omega
    have hfuel : squareBound < 2 + squareBound := by decide
    rw [extractFrom_eq le_rfl hpos hfuel]
    dsimp only
    -- With the search in the goal, `rfl` would unroll its fuel.
    generalize Rational.extractFrom squareBound 2 1 v.natAbs = pair
    rfl

end Extraction

/-! ## Extraction is exact and exhaustive -/

/-- The square factor of a positive number and what is left of it are positive and give the number
back, and what is left is divisible by the square of no number from `2` to the bound. Nothing more is
extracted from it, and it is squarefree if every prime whose square divides the number is within the
bound. The loops find both in finitely many steps. -/
theorem extractSquares_exhaustive {v : Int} (hv : 0 < v) :
    ∃ outside inside, extractSquares v = (outside, inside) ∧
      Extraction.extractSquares v = some (outside, inside) ∧
      0 < outside ∧ 0 < inside ∧ (outside : Int) ^ 2 * inside = v ∧
      (∀ m : Nat, 2 ≤ m → m ≤ 10000 → ¬ (m : Int) ^ 2 ∣ inside) ∧
      extractSquares inside = (1, inside) ∧
      ((∀ p : Nat, p.Prime → (p : Int) ^ 2 ∣ v → p ≤ 10000) → Squarefree inside) := by
  obtain ⟨hout, hin, heq⟩ := extractSquares_spec hv
  rw [← pow_two] at heq
  exact ⟨(extractSquares v).1, (extractSquares v).2, rfl, Extraction.extractSquares_eq v, hout, hin,
    heq, fun m htwo hm => not_sq_dvd_extractSquares hv htwo hm, extractSquares_extractSquares hv,
    squarefree_inside hv⟩

/-- `72 * 10007` is the square of `6` times `2 * 10007`: the search ends long before the candidate
`10007`, and what is left is squarefree. -/
theorem extractSquares_exhaustive_early :
    (0 : Int) < 720504 ∧ extractSquares 720504 = (6, 20014) ∧
      Extraction.extractSquares 720504 = some (6, 20014) ∧ extractSquares 20014 = (1, 20014) ∧
      ¬ ((6 : Nat) : Int) ^ 2 ∣ 20014 ∧
      (∀ p : Nat, p.Prime → (p : Int) ^ 2 ∣ 720504 → p ≤ 10000) ∧ Squarefree (20014 : Int) := by
  obtain ⟨outside, inside, heq, hloops, -, -, -, hsquares, hagain, hfree⟩ :=
    extractSquares_exhaustive (show (0 : Int) < 720504 by decide)
  have hvalue : extractSquares 720504 = (6, 20014) := by decide +kernel
  obtain ⟨rfl, rfl⟩ := Prod.mk.inj (heq.symm.trans hvalue)
  have hprimes : ∀ p : Nat, p.Prime → (p : Int) ^ 2 ∣ 720504 → p ≤ 10000 := by
    intro p _ hdvd
    have hle : (p : Int) ^ 2 ≤ 720504 := Int.le_of_dvd (by decide) hdvd
    by_contra hp
    have : (10000 : Int) ^ 2 ≤ (p : Int) ^ 2 := by gcongr; omega
    omega
  exact ⟨by decide, hvalue, hloops, hagain, hsquares 6 (by decide) (by decide), hprimes,
    hfree hprimes⟩

end ClosedForm.Rational
