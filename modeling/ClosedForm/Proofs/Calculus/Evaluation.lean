import ClosedForm.Proofs.Results
import ClosedForm.Proofs.Value.Powers
import Mathlib.Algebra.Algebra.Rat

/-!
# Values in a ring

The expressions made of constants, symbols, sums, products, integer powers and functions of one
argument have values in every ring over the rationals that has `Functions`: a partial meaning of
the functions, and partial reciprocals for the negative powers. `Functions.eval` is strict, and an
expression with another exponent or with the imaginary unit has no value.

Values move along whatever is `Functions.Related`: a relation of two rings that constants, sums,
products, functions and reciprocals respect (`Functions.Related.eval`). An `Interpretation` gives
such an expression the same value (`Interpretation.value_of_eval`).
-/

namespace ClosedForm

/-- The integer that a constant stands for. -/
def Expr.integer? : Expr → Option ℤ
  | .constant q => if Rational.isInteger q then some q.num else none
  | _ => none

/-- The integer that an exponent stands for: an integer constant, or a sum of such. -/
def Expr.integerExponent? : Expr → Option ℤ
  | .add terms => (terms.mapM Expr.integer?).map List.sum
  | e => e.integer?

theorem Expr.integer?_eq_some {e : Expr} {n : ℤ} : e.integer? = some n ↔ e = .constant n := by
  cases e with
  | constant q =>
    simp only [Expr.integer?, Rational.isInteger, beq_iff_eq, Option.ite_none_right_eq_some,
      Option.some.injEq, constant.injEq]
    constructor
    · rintro ⟨hden, rfl⟩
      exact (Rat.den_eq_one_iff q).mp hden |>.symm
    · rintro rfl
      exact ⟨Rat.den_intCast n, Rat.num_intCast n⟩
  | _ => simp [Expr.integer?]

theorem Expr.integerExponent?_eq_some {e : Expr} {n : ℤ} :
    e.integerExponent? = some n ↔ e = .constant n ∨
      ∃ ts ns, e = .add ts ∧ List.Forall₂ (fun t (k : ℤ) => t = .constant k) ts ns ∧ ns.sum = n := by
  cases e with
  | add ts => simp [integerExponent?, option_mapM_eq_some, integer?_eq_some]
  | _ => simp [integerExponent?, integer?_eq_some]

theorem Expr.integerExponent?_constant (n : ℤ) : (Expr.constant n).integerExponent? = some n :=
  integerExponent?_eq_some.mpr (.inl rfl)

/-- Functions of one argument, and reciprocals; undefined where they give `none`. -/
structure Functions (A : Type*) where
  apply : Func → A → Option A
  inverse : A → Option A

namespace Functions

open ClosedForm.Expr

variable {A B : Type*} [CommRing A] [Algebra ℚ A] [CommRing B] [Algebra ℚ B]

section Eval

variable (F : Functions A) (σ : String → A)

/-- An integer power; a negative one is a power of the reciprocal. -/
def power (b : A) : ℤ → Option A
  | .ofNat n => some (b ^ n)
  | .negSucc n => (F.inverse b).map (· ^ (n + 1))

/-- The value of a node from the values of its children. -/
def evalStep (e : Expr) (values : List (Option A)) : Option A :=
  match e, values with
  | .constant c, _ => some (algebraMap ℚ A c)
  | .symbol name, _ => some (σ name)
  | .add _, values => (values.mapM id).map List.sum
  | .mul _, values => (values.mapM id).map List.prod
  | .pow _ exponent, [base, _] => base.bind fun b => exponent.integerExponent?.bind (F.power b)
  | .function .imaginaryUnit _, _ => none
  | .function f _, [argument] => argument.bind (F.apply f)
  | _, _ => none

/-- The value of an expression where the symbols have the values `σ`; it has one only if all its
subexpressions do. -/
def eval : Expr → Option A :=
  recurse (evalStep F σ)

/-- The expressions have these values. -/
def Evals (es : List Expr) (as : List A) : Prop :=
  List.Forall₂ (fun e a => F.eval σ e = some a) es as

end Eval

variable {F : Functions A} {G : Functions B} {σ : String → A} {τ : String → B}

theorem eval_eq (e : Expr) : F.eval σ e = F.evalStep σ e (e.children.map (F.eval σ)) :=
  recurse_eq _ _

@[simp] theorem eval_constant (c : Rat) : F.eval σ (.constant c) = some (algebraMap ℚ A c) := rfl

@[simp] theorem eval_symbol (name : String) : F.eval σ (.symbol name) = some (σ name) := rfl

theorem mapM_evals {es : List Expr} {as : List A} :
    (es.map (F.eval σ)).mapM id = some as ↔ F.Evals σ es as := by
  rw [List.mapM_map]
  exact option_mapM_eq_some

theorem eval_add_eq_some {ts : List Expr} {a : A} :
    F.eval σ (.add ts) = some a ↔ ∃ as, F.Evals σ ts as ∧ as.sum = a := by
  rw [eval_eq]
  simp only [← mapM_evals]
  exact Option.map_eq_some_iff

theorem eval_mul_eq_some {fs : List Expr} {a : A} :
    F.eval σ (.mul fs) = some a ↔ ∃ as, F.Evals σ fs as ∧ as.prod = a := by
  rw [eval_eq]
  simp only [← mapM_evals]
  exact Option.map_eq_some_iff

theorem eval_pow_eq_some {base exponent : Expr} {a : A} :
    F.eval σ (.pow base exponent) = some a ↔ ∃ b n, F.eval σ base = some b ∧
      exponent.integerExponent? = some n ∧ F.power b n = some a := by
  show ((F.eval σ base).bind fun b => exponent.integerExponent?.bind (F.power b)) = some a ↔ _
  simp [Option.bind_eq_some_iff]

theorem eval_call {f : Func} (hf : f ≠ .imaginaryUnit) (argument : Expr) :
    F.eval σ (.call f argument) = (F.eval σ argument).bind (F.apply f) := by
  cases f with
  | imaginaryUnit => exact absurd rfl hf
  | _ => rfl

/-- Only functions of one argument have values. -/
theorem eval_function_eq_some {f : Func} {arguments : List Expr} {a : A} :
    F.eval σ (.function f arguments) = some a ↔ f ≠ .imaginaryUnit ∧ ∃ argument b,
      arguments = [argument] ∧ F.eval σ argument = some b ∧ F.apply f b = some a := by
  rw [eval_eq]
  match arguments with
  | [] => cases f <;> simp [children, evalStep]
  | [argument] => cases f <;> simp [children, evalStep, Option.bind_eq_some_iff]
  | _ :: _ :: _ => cases f <;> simp [children, evalStep]

theorem eval_of_mem {es : List Expr} {as : List A} (h : F.Evals σ es as) {e : Expr} (he : e ∈ es) :
    ∃ a, F.eval σ e = some a := by
  obtain ⟨i, hi, rfl⟩ := List.getElem_of_mem he
  exact ⟨_, h.get hi (h.length_eq ▸ hi)⟩

/-- An exponent has the value of the integer that it stands for. -/
theorem eval_of_integerExponent? {e : Expr} {n : ℤ} (h : e.integerExponent? = some n) :
    F.eval σ e = some (algebraMap ℚ A n) := by
  rcases integerExponent?_eq_some.mp h with rfl | ⟨ts, ns, rfl, hts, rfl⟩
  · rfl
  · refine eval_add_eq_some.mpr ⟨ns.map fun n : ℤ => algebraMap ℚ A n, ?_, ?_⟩
    · exact List.forall₂_map_right_iff.mpr (hts.imp fun t k hk => hk ▸ rfl)
    · simp only [map_intCast]
      exact (map_list_sum (Int.castRingHom A) ns).symm

/-- An expression has a value only if its children do. -/
theorem eval_of_mem_children {e c : Expr} {a : A} (h : F.eval σ e = some a) (hc : c ∈ e.children) :
    ∃ b, F.eval σ c = some b := by
  cases e with
  | constant | symbol => cases hc
  | add ts =>
    obtain ⟨as, has, -⟩ := eval_add_eq_some.mp h
    exact eval_of_mem has hc
  | mul fs =>
    obtain ⟨as, has, -⟩ := eval_mul_eq_some.mp h
    exact eval_of_mem has hc
  | pow base exponent =>
    obtain ⟨b, n, hb, hn, -⟩ := eval_pow_eq_some.mp h
    simp only [children, List.mem_cons, List.not_mem_nil, or_false] at hc
    rcases hc with rfl | rfl
    · exact ⟨b, hb⟩
    · exact ⟨_, eval_of_integerExponent? hn⟩
  | function f arguments =>
    obtain ⟨-, argument, b, rfl, hb, -⟩ := eval_function_eq_some.mp h
    obtain rfl := List.mem_singleton.mp hc
    exact ⟨b, hb⟩

/-! ## Related rings -/

/-- Related arguments have related values. -/
structure Related (F : Functions A) (G : Functions B) (r : A → B → Prop) : Prop where
  constant : ∀ c : ℚ, r (algebraMap ℚ A c) (algebraMap ℚ B c)
  add : ∀ {a a' b b'}, r a b → r a' b' → r (a + a') (b + b')
  mul : ∀ {a a' b b'}, r a b → r a' b' → r (a * a') (b * b')
  apply : ∀ {f a a' b}, r a b → F.apply f a = some a' → ∃ b', G.apply f b = some b' ∧ r a' b'
  inverse : ∀ {a a' b}, r a b → F.inverse a = some a' → ∃ b', G.inverse b = some b' ∧ r a' b'

namespace Related

variable {r : A → B → Prop}

theorem zero (h : Related F G r) : r 0 0 := by
  simpa using h.constant 0

theorem one (h : Related F G r) : r 1 1 := by
  simpa using h.constant 1

theorem pow (h : Related F G r) {a : A} {b : B} (hab : r a b) (n : ℕ) : r (a ^ n) (b ^ n) := by
  induction n with
  | zero => simpa using h.one
  | succ n ih => simpa only [pow_succ] using h.mul ih hab

theorem power (h : Related F G r) {a a' : A} {b : B} (hab : r a b) {n : ℤ}
    (hpower : F.power a n = some a') : ∃ b', G.power b n = some b' ∧ r a' b' := by
  cases n with
  | ofNat n =>
    cases hpower
    exact ⟨b ^ n, rfl, h.pow hab n⟩
  | negSucc n =>
    obtain ⟨c, hc, rfl⟩ := Option.map_eq_some_iff.mp hpower
    obtain ⟨d, hd, hcd⟩ := h.inverse hab hc
    exact ⟨d ^ (n + 1), Option.map_eq_some_iff.mpr ⟨d, hd, rfl⟩, h.pow hcd _⟩

theorem list_sum (h : Related F G r) {as : List A} {bs : List B} (hab : List.Forall₂ r as bs) :
    r as.sum bs.sum := by
  induction hab with
  | nil => exact h.zero
  | cons hab _ ih => simpa only [List.sum_cons] using h.add hab ih

theorem list_prod (h : Related F G r) {as : List A} {bs : List B} (hab : List.Forall₂ r as bs) :
    r as.prod bs.prod := by
  induction hab with
  | nil => exact h.one
  | cons hab _ ih => simpa only [List.prod_cons] using h.mul hab ih

/-- Where the children have related values, lists of them have. -/
theorem evals {es : List Expr}
    (hes : ∀ e ∈ es, ∀ a, F.eval σ e = some a → ∃ b, G.eval τ e = some b ∧ r a b) {as : List A}
    (has : F.Evals σ es as) : ∃ bs, G.Evals τ es bs ∧ List.Forall₂ r as bs := by
  induction has with
  | nil => exact ⟨[], .nil, .nil⟩
  | @cons e a es as ha _ ih =>
    obtain ⟨b, hb, hab⟩ := hes e (by simp) a ha
    obtain ⟨bs, hbs, habs⟩ := ih fun e he => hes e (by simp [he])
    exact ⟨b :: bs, .cons hb hbs, .cons hab habs⟩

/-- An expression with a value at some assignment has a related one at a related assignment. -/
theorem eval (h : Related F G r) (hσ : ∀ name, r (σ name) (τ name)) {e : Expr} {a : A}
    (ha : F.eval σ e = some a) : ∃ b, G.eval τ e = some b ∧ r a b := by
  induction e using Expr.induction generalizing a with
  | node e ih =>
    have ih : ∀ c ∈ e.children, ∀ a, F.eval σ c = some a → ∃ b, G.eval τ c = some b ∧ r a b :=
      fun c hc a ha => ih c hc ha
    cases e with
    | constant c =>
      cases ha
      exact ⟨_, rfl, h.constant c⟩
    | symbol name =>
      cases ha
      exact ⟨_, rfl, hσ name⟩
    | add ts =>
      obtain ⟨as, has, rfl⟩ := eval_add_eq_some.mp ha
      obtain ⟨bs, hbs, hab⟩ := evals ih has
      exact ⟨_, eval_add_eq_some.mpr ⟨bs, hbs, rfl⟩, h.list_sum hab⟩
    | mul fs =>
      obtain ⟨as, has, rfl⟩ := eval_mul_eq_some.mp ha
      obtain ⟨bs, hbs, hab⟩ := evals ih has
      exact ⟨_, eval_mul_eq_some.mpr ⟨bs, hbs, rfl⟩, h.list_prod hab⟩
    | pow base exponent =>
      obtain ⟨c, n, hc, hn, hpower⟩ := eval_pow_eq_some.mp ha
      obtain ⟨d, hd, hcd⟩ := ih base (by simp [children]) c hc
      obtain ⟨b, hb, hab⟩ := h.power hcd hpower
      exact ⟨b, eval_pow_eq_some.mpr ⟨d, n, hd, hn, hb⟩, hab⟩
    | function f arguments =>
      obtain ⟨hf, argument, c, rfl, hc, hfc⟩ := eval_function_eq_some.mp ha
      obtain ⟨d, hd, hcd⟩ := ih argument (by simp [children]) c hc
      obtain ⟨b, hb, hab⟩ := h.apply hcd hfc
      exact ⟨b, eval_function_eq_some.mpr ⟨hf, argument, d, rfl, hd, hb⟩, hab⟩

end Related

end Functions

/-! ## Interpretations -/

namespace Interpretation

open ClosedForm.Expr

variable {K : Type*} [Field K] [CharZero K] {M : Interpretation K} {σ : String → K}

open Classical in
/-- The functions of an interpretation, with the reciprocals of the field. -/
noncomputable def functions (M : Interpretation K) : Functions K where
  apply := M.apply
  inverse b := if b = 0 then none else some b⁻¹

theorem sumValue_eq_some {es : List Expr} {x : K} : M.sumValue σ es = some x ↔
    ∃ xs, List.Forall₂ (fun e y => M.value σ e = some y) es xs ∧ xs.sum = x := by
  induction es generalizing x with
  | nil => simp [sumValue]
  | cons e es ih =>
    rw [sumValue_cons_eq_some]
    simp only [ih, List.forall₂_cons_left_iff]
    constructor
    · rintro ⟨y, _, hy, ⟨ys, hys, rfl⟩, rfl⟩
      exact ⟨y :: ys, ⟨y, ys, hy, hys, rfl⟩, List.sum_cons⟩
    · rintro ⟨_, ⟨y, ys, hy, hys, rfl⟩, rfl⟩
      exact ⟨y, _, hy, ⟨ys, hys, rfl⟩, List.sum_cons.symm⟩

theorem productValue_eq_some {es : List Expr} {x : K} : M.productValue σ es = some x ↔
    ∃ xs, List.Forall₂ (fun e y => M.value σ e = some y) es xs ∧ xs.prod = x := by
  induction es generalizing x with
  | nil => simp [productValue]
  | cons e es ih =>
    rw [productValue_cons_eq_some]
    simp only [ih, List.forall₂_cons_left_iff]
    constructor
    · rintro ⟨y, _, hy, ⟨ys, hys, rfl⟩, rfl⟩
      exact ⟨y :: ys, ⟨y, ys, hy, hys, rfl⟩, List.prod_cons⟩
    · rintro ⟨_, ⟨y, ys, hy, hys, rfl⟩, rfl⟩
      exact ⟨y, _, hy, ⟨ys, hys, rfl⟩, List.prod_cons.symm⟩

theorem functions_inverse_eq_some {b x : K} : M.functions.inverse b = some x ↔ b ≠ 0 ∧ b⁻¹ = x := by
  simp [functions]

/-- Integer powers are the ordinary ones. -/
theorem functions_power (b : K) (n : ℤ) : M.functions.power b n = M.pow b n := by
  cases n with
  | ofNat n =>
    have hpow := M.pow_int b n (.inr (Int.natCast_nonneg n))
    rw [zpow_natCast] at hpow
    exact hpow.symm
  | negSucc n =>
    by_cases hb : b = 0
    · rw [hb, M.zero_pow_neg _ (Int.negSucc_lt_zero n)]
      simp [Functions.power, functions]
    · rw [M.pow_int b _ (.inl hb)]
      simp [Functions.power, functions, hb, zpow_negSucc]

theorem value_of_integerExponent? {e : Expr} {n : ℤ} (h : e.integerExponent? = some n) :
    M.value σ e = some (n : K) := by
  rcases integerExponent?_eq_some.mp h with rfl | ⟨ts, ns, rfl, hts, rfl⟩
  · simp [value_constant]
  · rw [value_add]
    refine sumValue_eq_some.mpr ⟨ns.map (Int.castRingHom K), ?_, (map_list_sum _ ns).symm⟩
    refine List.forall₂_map_right_iff.mpr (hts.imp fun t k hk => ?_)
    simp [hk, value_constant]

/-- An interpretation gives an expression the value that its functions give it. -/
theorem value_of_eval {e : Expr} {x : K} (h : M.functions.eval σ e = some x) :
    M.value σ e = some x := by
  induction e using Expr.induction generalizing x with
  | node e ih =>
    cases e with
    | constant c =>
      rw [value_constant]
      exact h
    | symbol name =>
      rw [value]
      exact h
    | add ts =>
      obtain ⟨xs, hxs, rfl⟩ := Functions.eval_add_eq_some.mp h
      rw [value_add]
      exact sumValue_eq_some.mpr ⟨xs, forall₂_imp_of_mem hxs fun e he x hx => ih e he hx, rfl⟩
    | mul fs =>
      obtain ⟨xs, hxs, rfl⟩ := Functions.eval_mul_eq_some.mp h
      rw [value_mul]
      exact productValue_eq_some.mpr ⟨xs, forall₂_imp_of_mem hxs fun e he x hx => ih e he hx, rfl⟩
    | pow base exponent =>
      obtain ⟨b, n, hb, hn, hpower⟩ := Functions.eval_pow_eq_some.mp h
      rw [functions_power] at hpower
      exact value_pow_eq_some.mpr ⟨b, n, ih base (by simp [children]) hb,
        value_of_integerExponent? hn, hpower⟩
    | function f arguments =>
      obtain ⟨-, argument, b, rfl, hb, hfb⟩ := Functions.eval_function_eq_some.mp h
      rw [value_function, ih argument (by simp [children]) hb]
      exact hfb

end Interpretation

end ClosedForm
