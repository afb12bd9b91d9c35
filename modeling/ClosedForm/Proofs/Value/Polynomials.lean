import ClosedForm.Proofs.Coefficients
import ClosedForm.Proofs.Outcomes

/-!
# The value of a polynomial

`Polynomial.valueAt` is the sum of the coefficients times the powers of a number. The ring operations
add and multiply these sums, so the polynomial of an expression in a symbol has the value of the
expression wherever that has one (`Polynomial.ensures_value_ofExpr`). `Session.polynomial_sound` says
of a reachable session what the coefficients that it extracts are.

`Polynomial.Has` says that graded coefficients add up to a value at every assignment.
-/

namespace ClosedForm

open ClosedForm.Expr
open Interpretation (Gives)

variable {K : Type*} [Field K] [CharZero K] {M : Interpretation K} {name : String}
  {bounds : Bounds} {σ : String → K} {t : K}

namespace Polynomial

/-- The sum of the coefficients times the powers of `t`. -/
def valueAt (M : Interpretation K) (σ : String → K) (t : K) : List (Nat × Expr) → Option K
  | [] => some 0
  | (power, c) :: rest =>
    Option.map₂ (fun y s => y * t ^ power + s) (M.value σ c) (valueAt M σ t rest)

theorem valueAt_cons_eq_some {x : K} {power : Nat} {c : Expr} {rest : List (Nat × Expr)} :
    valueAt M σ t ((power, c) :: rest) = some x ↔
      ∃ y s, M.value σ c = some y ∧ valueAt M σ t rest = some s ∧ y * t ^ power + s = x := by
  simp [valueAt, Option.map₂_eq_some_iff]

theorem eq_zero_of_value {c : Expr} {y : K} (hc : M.value σ c = some y) (hzero : c.isZero = true) :
    y = 0 := by
  rw [eq_zero_of_isZero hzero, Interpretation.value_zero] at hc
  exact (Option.some.inj hc).symm

/-! ## Ring operations -/

/-- Adding to a coefficient adds to the value. -/
theorem valueAt_addAt {ts : List (Nat × Expr)} {c : Expr} {s y : K} (power : Nat)
    (h : valueAt M σ t ts = some s) (hc : M.value σ c = some y) :
    valueAt M σ t (addAt power c ts) = some (s + y * t ^ power) := by
  induction ts generalizing s with
  | nil =>
    obtain rfl : 0 = s := Option.some.inj h
    rw [addAt]
    split
    · next hzero => rw [eq_zero_of_value hc hzero, zero_mul, zero_add, valueAt]
    · exact valueAt_cons_eq_some.mpr ⟨y, 0, hc, by rw [valueAt], add_comm _ _⟩
  | cons first rest ih =>
    obtain ⟨other, d⟩ := first
    obtain ⟨z, r, hd, hr, rfl⟩ := valueAt_cons_eq_some.mp h
    rw [addAt]
    split
    · split
      · next hzero => rw [h, eq_zero_of_value hc hzero, zero_mul, add_zero]
      · exact valueAt_cons_eq_some.mpr ⟨y, _, hc, h, add_comm _ _⟩
    · split
      · next heq =>
        subst heq
        have hsum := Interpretation.value_add_pair hd hc
        dsimp only
        split
        · next hzero =>
          rw [hr, Option.some.injEq]
          linear_combination -t ^ power * eq_zero_of_value hsum hzero
        · exact valueAt_cons_eq_some.mpr ⟨_, r, hsum, hr, by ring⟩
      · exact valueAt_cons_eq_some.mpr ⟨z, _, hd, ih hr, by ring⟩

theorem valueAt_add {p q : Polynomial} {x y : K} (hp : valueAt M σ t p.coefficients = some x)
    (hq : valueAt M σ t q.coefficients = some y) :
    valueAt M σ t (add p q).coefficients = some (x + y) := by
  unfold add
  dsimp only
  generalize p.coefficients = ss at hp
  generalize q.coefficients = ts at hq
  induction ts generalizing ss x y with
  | nil =>
    obtain rfl : 0 = y := Option.some.inj hq
    rwa [add_zero]
  | cons first ts ih =>
    obtain ⟨z, r, hc, hr, rfl⟩ := valueAt_cons_eq_some.mp hq
    rw [List.foldl_cons, ih _ (valueAt_addAt first.1 hp hc) hr, add_assoc]

/-- Powers that are not refused are added. -/
theorem ends_addPowers (m n : Nat) : Ends Error.IsRegular (· = m + n) (addPowers m n) := by
  unfold addPowers
  split
  · exact fun row => by simp
  · exact rfl

theorem ends_addScaled {p : Polynomial} {sum : List (Nat × Expr)} {c : Expr} {s y x : K}
    (power : Nat) (hsum : valueAt M σ t sum = some s) (hc : M.value σ c = some y)
    (hp : valueAt M σ t p.coefficients = some x) :
    Ends Error.IsRegular (fun r => valueAt M σ t r = some (s + y * t ^ power * x))
      (addScaled bounds power c p sum) := by
  unfold addScaled
  generalize p.coefficients = ts at hp
  induction ts generalizing sum s x with
  | nil =>
    obtain rfl : 0 = x := Option.some.inj hp
    rw [mul_zero, add_zero]
    exact hsum
  | cons first ts ih =>
    obtain ⟨z, r, hd, hr, rfl⟩ := valueAt_cons_eq_some.mp hp
    rw [List.foldlM_cons, bind_assoc]
    have hmultiply : Ends _ _ (Canonical.multiply bounds [c, first.2]) :=
      Interpretation.ends_multiply_pair hc hd
    refine (hmultiply.mono fun _ => Error.IsRefusedPower.isRegular).bind fun product hproduct => ?_
    rw [bind_assoc]
    refine (ends_addPowers power first.1).bind ?_
    rintro _ rfl
    refine (ih (valueAt_addAt (power + first.1) hsum hproduct) hr).imp fun result hresult => ?_
    rw [hresult, pow_add]
    congr 1
    ring

theorem ends_mul {p q : Polynomial} {x y : K} (hp : valueAt M σ t p.coefficients = some x)
    (hq : valueAt M σ t q.coefficients = some y) :
    Ends Error.IsRegular (fun r => valueAt M σ t r.coefficients = some (x * y))
      (mul bounds p q) := by
  have hsteps : ∀ (ts sum : List (Nat × Expr)) (x s : K), valueAt M σ t ts = some x →
      valueAt M σ t sum = some s → Ends Error.IsRegular
        (fun r => valueAt M σ t r = some (s + x * y))
        (ts.foldlM (fun sum t => addScaled bounds t.1 t.2 q sum) sum) := by
    intro ts
    induction ts with
    | nil =>
      intro sum x s hts hsum
      obtain rfl : 0 = x := Option.some.inj hts
      rw [zero_mul, add_zero]
      exact hsum
    | cons first ts ih =>
      intro sum x s hts hsum
      obtain ⟨z, r, hc, hr, rfl⟩ := valueAt_cons_eq_some.mp hts
      rw [List.foldlM_cons]
      refine (ends_addScaled first.1 hsum hc hq).bind fun sum hsum => ?_
      refine (ih sum _ _ hr hsum).imp fun result hresult => ?_
      rw [hresult]
      congr 1
      ring
  refine (hsteps p.coefficients [] x 0 hp rfl).bind fun r hr => ?_
  rwa [zero_add] at hr

theorem valueAt_ofConstant {e : Expr} {x : K} (he : M.value σ e = some x) :
    valueAt M σ t (ofConstant e).coefficients = some x := by
  unfold ofConstant
  dsimp only
  split
  · next hzero => rw [eq_zero_of_value he hzero, valueAt]
  · exact valueAt_cons_eq_some.mpr ⟨x, 0, he, by rw [valueAt], by ring⟩

theorem valueAt_monomial (n : Nat) : valueAt M σ t (monomial n).coefficients = some (t ^ n) :=
  valueAt_cons_eq_some.mpr ⟨1, 0, Interpretation.value_one, by rw [valueAt], by ring⟩

section Powers

variable {A : Type*} [Monoid A] {R : Polynomial → A → Prop} {failure : Error → Prop}
  (size : A → Nat) (limit : Nat) (hsize : ∀ x y, size (x * y) ≤ size x + size y)
  (hmul : ∀ {p q : Polynomial} {x y : A}, R p x → R q y → size x + size y ≤ limit →
    Ends failure (R · (x * y)) (mul bounds p q))
include hsize hmul

/-- Squaring the base halves the exponent, whatever it is that the product of polynomials multiplies. No
product on the way is larger than the last one. -/
theorem ends_powLoop (fuel n : Nat) {base result : Polynomial} {x y : A} (hfuel : n ≤ fuel)
    (hbase : R base x) (hresult : R result y) (hlimit : size y + n * size x ≤ limit) :
    Ends failure (R · (y * x ^ n)) (powLoop bounds fuel n base result) := by
  induction fuel generalizing n base result x y with
  | zero =>
    obtain rfl : n = 0 := by omega
    rw [pow_zero, mul_one]
    exact hresult
  | succ fuel ih =>
    rw [powLoop_succ]
    split
    · next hzero =>
      rw [hzero, pow_zero, mul_one]
      exact hresult
    · next hpos =>
      -- The factor that an odd exponent leaves over.
      have hle : size x ≤ n * size x := Nat.le_mul_of_pos_left _ (by omega)
      have hodd : Ends failure (R · (y * x ^ (n % 2)))
          (if n % 2 = 1 then mul bounds result base else .ok result) := by
        split
        · next h =>
          rw [h, pow_one]
          exact hmul hresult hbase (by omega)
        · next h =>
          rw [show n % 2 = 0 by omega, pow_zero, mul_one]
          exact hresult
      have hsplit : x ^ n = x ^ (n % 2) * (x * x) ^ (n / 2) := by
        rw [← pow_two, ← pow_mul, ← pow_add, Nat.mod_add_div]
      refine hodd.bind fun r hr => ?_
      split
      · next hhalf =>
        rw [hsplit, hhalf, pow_zero, mul_one]
        exact hr
      · next hhalf =>
        have hdouble : 2 * size x ≤ n * size x := Nat.mul_le_mul_right _ (by omega)
        refine (hmul hbase hbase (by omega)).bind fun squared hsquared => ?_
        rw [hsplit, ← mul_assoc]
        refine ih (n / 2) (by omega) hsquared hr ?_
        -- The exponent is split, and so is the size that it stands for.
        have hone : size (y * x ^ (n % 2)) ≤ size y + n % 2 * size x := by
          rcases Nat.mod_two_eq_zero_or_one n with h | h
          · rw [h, pow_zero, mul_one, zero_mul, add_zero]
          · rw [h, pow_one, one_mul]
            exact hsize y x
        calc size (y * x ^ (n % 2)) + n / 2 * size (x * x)
            ≤ size y + n % 2 * size x + n / 2 * (size x + size x) :=
              Nat.add_le_add hone (Nat.mul_le_mul_left _ (hsize x x))
          _ = size y + (n % 2 + 2 * (n / 2)) * size x := by ring
          _ ≤ limit := by rwa [Nat.mod_add_div]

theorem ends_pow_of_mul (hone : R (ofConstant .one) 1) (hzero : size 1 = 0) (n : Nat) {p : Polynomial}
    {x : A} (hp : R p x) (hlimit : n * size x ≤ limit) :
    Ends failure (R · (x ^ n)) (pow bounds p n) := by
  have hloop := ends_powLoop size limit hsize hmul n n le_rfl hp hone (by rwa [hzero, zero_add])
  rwa [one_mul] at hloop

end Powers

theorem ends_pow (n : Nat) {p : Polynomial} {x : K} (hp : valueAt M σ t p.coefficients = some x) :
    Ends Error.IsRegular (fun r => valueAt M σ t r.coefficients = some (x ^ n))
      (pow bounds p n) :=
  ends_pow_of_mul (R := fun p x => valueAt M σ t p.coefficients = some x) (fun _ => 0) 0
    (fun _ _ => le_rfl) (fun hp hq _ => ends_mul hp hq) (valueAt_ofConstant Interpretation.value_one) rfl n
    hp le_rfl

/-! ## The polynomial of an expression -/

theorem ends_naturalExponent (name : String) (exponent : Expr) :
    Ends Error.IsRegular (fun n : Nat => exponent = .constant n) (naturalExponent name exponent) := by
  have hregular (reason : NonPolynomial) : Error.IsRegular (.nonPolynomial name reason) :=
    fun row => by simp
  unfold naturalExponent
  dsimp only
  split
  · exact hregular _
  · cases exponent with
    | constant q =>
      dsimp only [constant?]
      split
      · exact hregular _
      · next hinteger =>
        split
        · exact hregular _
        · next hneg =>
          split
          · exact hregular _
          · have hden : q.den = 1 := by simpa [Rational.isInteger] using hinteger
            have hnum : (q.num.natAbs : Int) = q.num :=
              Int.natAbs_of_nonneg (Rat.num_nonneg.mpr (not_lt.mp hneg))
            show Expr.constant q = .constant ((q.num.natAbs : Nat) : Rat)
            rw [← Int.cast_natCast, hnum, Rat.den_eq_one_iff q |>.mp hden]
    | _ => exact hregular _

/-- The polynomial has the value that the expression has. -/
def Describes (M : Interpretation K) (name : String) (σ : String → K) (e : Expr) (p : Polynomial) :
    Prop :=
  ∀ x, M.value σ e = some x → valueAt M σ (σ name) p.coefficients = some x

theorem Describes.foldl_add {ts : List Expr} {parts : List Polynomial}
    (h : List.Forall₂ (Describes M name σ) ts parts) {p : Polynomial} {x s : K}
    (hp : valueAt M σ (σ name) p.coefficients = some x) (hs : M.sumValue σ ts = some s) :
    valueAt M σ (σ name) (parts.foldl Polynomial.add p).coefficients = some (x + s) := by
  induction h generalizing p x s with
  | nil =>
    obtain rfl : 0 = s := Option.some.inj (by rw [← hs, Interpretation.sumValue])
    rw [add_zero]
    exact hp
  | cons hpart _ ih =>
    obtain ⟨y, r, hy, hr, rfl⟩ := Interpretation.sumValue_cons_eq_some.mp hs
    rw [List.foldl_cons, ih (valueAt_add hp (hpart y hy)) hr, add_assoc]

theorem Describes.foldlM_mul {fs : List Expr} {parts : List Polynomial}
    (h : List.Forall₂ (Describes M name σ) fs parts) {p : Polynomial} {x s : K}
    (hp : valueAt M σ (σ name) p.coefficients = some x) (hs : M.productValue σ fs = some s) :
    Ends Error.IsRegular (fun r => valueAt M σ (σ name) r.coefficients = some (x * s))
      (parts.foldlM (mul bounds) p) := by
  induction h generalizing p x s with
  | nil =>
    obtain rfl : 1 = s := Option.some.inj (by rw [← hs, Interpretation.productValue])
    rw [mul_one]
    exact hp
  | cons hpart _ ih =>
    obtain ⟨y, r, hy, hr, rfl⟩ := Interpretation.productValue_cons_eq_some.mp hs
    rw [List.foldlM_cons]
    refine (ends_mul hp (hpart y hy)).bind fun q hq => ?_
    rw [← mul_assoc]
    exact ih hq hr

theorem ends_ofPower {base exponent : Expr} {part : Polynomial}
    (hpart : Describes M name σ base part) (rest : List Polynomial) {x : K}
    (hx : M.value σ (.pow base exponent) = some x) :
    Ends Error.IsRegular (fun p => valueAt M σ (σ name) p.coefficients = some x)
      (ofPower bounds name base exponent (part :: rest)) := by
  unfold ofPower
  refine (ends_naturalExponent name exponent).bind fun n hn => ?_
  subst hn
  obtain ⟨b, u, hb, hu, hpow⟩ := Interpretation.value_pow_eq_some.mp hx
  have hvalue : b ^ n = x := by
    have hexponent : u = ((n : ℤ) : K) := by
      have := Option.some.inj (hu.symm.trans (Interpretation.value_constant _))
      simpa using this
    rw [hexponent, M.pow_int b n (.inr (Int.natCast_nonneg n)), zpow_natCast] at hpow
    exact Option.some.inj hpow
  split
  · next hbase =>
    subst hbase
    have hsymbol : σ name = b := by
      rw [Interpretation.value] at hb
      exact Option.some.inj hb
    rw [← hvalue, ← hsymbol]
    exact valueAt_monomial n
  · split
    · exact fun row => by simp
    · rw [← hvalue]
      exact ends_pow n (hpart b hb)

/-- The polynomial of a node describes it, if those of the children describe these. -/
theorem ends_step {e : Expr} {parts : List Polynomial}
    (h : List.Forall₂ (Describes M name σ) e.children parts) {x : K} (hx : M.value σ e = some x) :
    Ends Error.IsRegular (fun p => valueAt M σ (σ name) p.coefficients = some x)
      (step bounds name e parts) := by
  unfold step
  split
  · next hsymbol =>
    subst hsymbol
    rw [Interpretation.value] at hx
    have hmonomial : valueAt M σ (σ name) (monomial 1).coefficients = some (σ name ^ 1) :=
      valueAt_monomial 1
    exact hmonomial.trans ((congrArg some (pow_one _)).trans hx)
  · split
    · exact valueAt_ofConstant hx
    · cases e with
      | constant | symbol => simp_all [contains, recurse]
      | add ts =>
        have hsum := Describes.foldl_add h (p := zero) (x := 0) rfl
          ((Interpretation.value_add ts).symm.trans hx)
        rwa [zero_add] at hsum
      | mul fs =>
        have hone : valueAt M σ (σ name) (ofConstant .one).coefficients = some 1 :=
          valueAt_ofConstant Interpretation.value_one
        refine (Describes.foldlM_mul h hone ((Interpretation.value_mul fs).symm.trans hx)).imp
          fun r hr => ?_
        rwa [one_mul] at hr
      | pow base exponent =>
        obtain _ | ⟨hbase, -⟩ := h
        exact ends_ofPower hbase _ hx
      | function head arguments => exact fun row => by simp

/-- The polynomial of an expression has the value of the expression. -/
theorem ends_ofCanonical {e : Expr} {x : K} (hx : M.value σ e = some x) :
    Ends Error.IsRegular (fun p => valueAt M σ (σ name) p.coefficients = some x)
      (ofCanonical bounds name e) := by
  induction e using Expr.induction generalizing x with
  | node e ih =>
    unfold ofCanonical at ih ⊢
    rw [Expr.foldM_eq]
    cases hparts : e.children.mapM fun child => child.foldM (step bounds name) with
    | error failure =>
      obtain ⟨c, hc, hfails⟩ := exists_of_mapM_eq_error hparts
      obtain ⟨y, hy⟩ := Interpretation.value_of_mem_children hx hc
      have := ih c hc hy
      rwa [hfails] at this
    | ok parts =>
      refine ends_step (forall₂_imp_of_mem (mapM_eq_ok.mp hparts) fun c hc part hpart y hy => ?_) hx
      have := ih c hc hy
      rwa [hpart] at this

/-! ## Canonical coefficients -/

/-- Canonicalizing the coefficients keeps the value. -/
theorem ensures_value_canonicalizeAll {ts : List (Nat × Expr)} {x : K}
    (h : valueAt M σ t ts = some x) :
    Ensures bounds Error.IsRegular (fun r => valueAt M σ t r = some x)
      (canonicalizeAll bounds ts) := by
  induction ts generalizing x with
  | nil => exact .pure h
  | cons first ts ih =>
    obtain ⟨y, s, hy, hs, rfl⟩ := valueAt_cons_eq_some.mp h
    unfold canonicalizeAll
    refine .bind (.canonicalize _) (.canonicalize_of_value hy) fun c hc => ?_
    refine .bind (.canonicalizeAll ts) (ih hs) fun rest hrest => .pure ?_
    split
    · next hzero => rw [hrest, eq_zero_of_value hc hzero, zero_mul, zero_add]
    · exact valueAt_cons_eq_some.mpr ⟨y, s, hc, hrest, rfl⟩

/-- The polynomial of an expression in a symbol has the value of the expression. -/
theorem ensures_value_ofExpr {e : Expr} {x : K} (hx : M.value σ e = some x) :
    Ensures bounds Error.IsRegular (fun p => valueAt M σ (σ name) p.coefficients = some x)
      (ofExpr bounds e name) := by
  refine .bind (.canonicalize e) (.canonicalize_of_value hx) fun canonical hcanonical => ?_
  refine .bind (.lift _) (.lift (ends_ofCanonical hcanonical)) fun raw hraw => ?_
  exact .bind (.canonicalizeAll _) (ensures_value_canonicalizeAll hraw) fun coefficients h => .pure h

theorem valueAt_of_ofExpr {memo later : Memo} (hmemo : memo.Reachable bounds) {e : Expr}
    {p : Polynomial} (hrun : (ofExpr bounds e name).run.run memo = (.ok p, later)) {x : K}
    (hx : M.value σ e = some x) : valueAt M σ (σ name) p.coefficients = some x := by
  have hvalue : Ends _ _ ((ofExpr bounds e name).run.run memo).1 := ensures_value_ofExpr hx memo hmemo
  rwa [hrun] at hvalue

/-! ## Expressions with a value everywhere -/

/-- Graded coefficients that at every assignment add up to the value given. -/
structure Has (M : Interpretation K) (name : String) (coefficients : List (Nat × Expr))
    (f : (String → K) → K) : Prop extends Graded name coefficients where
  value : ∀ σ, valueAt M σ (σ name) coefficients = some (f σ)

theorem Has.cons_inv {f : (String → K) → K} {s : Nat × Expr} {ts : List (Nat × Expr)}
    (h : Has M name (s :: ts) f) :
    ∃ g r, M.Gives s.2 g ∧ Has M name ts r ∧ ∀ σ, f σ = g σ * σ name ^ s.1 + r σ := by
  have hparts (σ : String → K) := valueAt_cons_eq_some.mp (h.value σ)
  choose g r hg hr hf using hparts
  exact ⟨g, r, hg, ⟨(graded_cons.mp h.toGraded).2.2, hr⟩, fun σ => (hf σ).symm⟩

/-- The polynomial of an expression in a symbol has canonical coefficients that are free of the symbol,
and the value of the expression. -/
theorem ensures_ofExpr {e : Expr} {f : (String → K) → K} (hf : M.Gives e f) :
    Ensures bounds Error.IsRegular (fun p => Has M name p.coefficients f) (ofExpr bounds e name) := by
  intro memo hmemo
  refine ((Ends.all fun σ => ensures_value_ofExpr (hf σ) memo hmemo).and fun p hp => ?_).imp
    fun p hp => ⟨hp.2, hp.1⟩
  exact (Graded.of_ofExpr hmemo (Prod.ext hp rfl)).1

end Polynomial

namespace Session

/-- A polynomial that a session extracts has coefficients by ascending powers, each free of the
symbol, other than `0` and a form that the session has as the form of itself. Under every
interpretation the coefficients times the powers of the symbol add up to the value of the expression,
wherever the expression and all its subexpressions have values. -/
theorem polynomial_sound {session later : Session} (hsession : session.Reachable bounds)
    {handle : Handle} {p : Polynomial}
    (hanswer : session.answer (polynomial handle name) = (.ok p, later)) :
    p.coefficients.Pairwise (fun s t => s.1 < t.1) ∧
    (∀ t ∈ p.coefficients, t.2.contains name = false ∧ t.2.isZero = false ∧
      later.memo.find? t.2 = some t.2) ∧
    ∀ (K : Type*) [Field K] [CharZero K] (M : Interpretation K) (σ : String → K) (x : K),
      M.value σ (session.pool.expr handle) = some x →
        Polynomial.valueAt M σ (σ name) p.coefficients = some x := by
  have hrun := (polynomial_performs hsession.consistent handle name).run_eq hanswer
  obtain ⟨hgraded, hfixed⟩ := Polynomial.Graded.of_ofExpr hsession.consistent.memo hrun
  refine ⟨hgraded.ascending, fun t ht => ⟨?_, (hfixed t ht).2, (hfixed t ht).1⟩, ?_⟩
  · rw [Bool.eq_false_iff]
    exact fun hcontains => hgraded.free t ht name hcontains rfl
  · intro K _ _ M σ x hx
    exact Polynomial.valueAt_of_ofExpr hsession.consistent.memo hrun hx

/-- In a session that read `(x + y)^2 + x/y` the polynomial in `x` has the coefficients `y^2`,
`1/y + 2*y` and `1`. Where `x` is `3` and `y` is `2` they add up to `53/2`, the value of the expression
there. -/
theorem polynomial_sound_text :
    ∃ (session later : Session) (handle : Handle) (p : Polynomial), session.Reachable {} ∧
      session.answer (polynomial handle "x") = (.ok p, later) ∧
      p.coefficients = [(0, .pow (.symbol "y") (.constant 2)),
        (1, .add [.pow (.symbol "y") (.constant (-1)), .mul [.constant 2, .symbol "y"]]),
        (2, .one)] ∧
      (∀ t ∈ p.coefficients, t.2.contains "x" = false ∧ t.2.isZero = false ∧
        later.memo.find? t.2 = some t.2) ∧
      Polynomial.valueAt Interpretation.complex (fun name => if name = "x" then 3 else 2) 3
        p.coefficients = some (53 / 2) := by
  have hread : Formula.read "(x + y)^2 + x/y" =
      .ok (.add [.pow (.add [.symbol "x", .symbol "y"]) (.constant 2),
        .mul [.symbol "x", .pow (.symbol "y") (.constant (-1))]]) := by cbv
  obtain ⟨session, handle, hreachable, hexpr, hmemo⟩ := exists_parsed {} hread
  have hanswer : (session.answer (polynomial handle "x")).1 = .ok ⟨[
      (0, .pow (.symbol "y") (.constant 2)),
      (1, .add [.pow (.symbol "y") (.constant (-1)), .mul [.constant 2, .symbol "y"]]),
      (2, .one)]⟩ := by
    rw [(polynomial_performs hreachable.consistent handle "x").outcome_eq, hexpr, hmemo]
    cbv
  obtain ⟨-, hcoefficients, hvalue⟩ := polynomial_sound hreachable (Prod.ext hanswer rfl)
  have hsquare : complexPower 5 2 = some 25 := by
    rw [show (2 : ℂ) = ((2 : ℤ) : ℂ) by norm_num, complexPower_int (.inr (by norm_num))]
    norm_num
  have hinverse : complexPower 2 (-1) = some (1 / 2) := by
    rw [show (-1 : ℂ) = ((-1 : ℤ) : ℂ) by norm_num, complexPower_int (.inl two_ne_zero)]
    norm_num
  have hexprvalue : Interpretation.complex.value (fun name => if name = "x" then 3 else 2)
      (session.pool.expr handle) = some (53 / 2) := by
    have hname : "y" ≠ "x" := by decide
    have hsum : (3 : ℂ) + 2 = 5 := by norm_num
    simp only [hexpr, Interpretation.value, Interpretation.sumValue, Interpretation.productValue,
      Interpretation.complex, Option.map₂_some_some, Option.bind_some, if_pos, if_neg hname, add_zero,
      hsum, Rat.cast_ofNat, Rat.cast_neg, Rat.cast_one, hsquare, hinverse, mul_one]
    norm_num
  exact ⟨session, _, handle, _, hreachable, Prod.ext hanswer rfl, rfl, hcoefficients,
    hvalue ℂ _ _ _ hexprvalue⟩

end Session

end ClosedForm
