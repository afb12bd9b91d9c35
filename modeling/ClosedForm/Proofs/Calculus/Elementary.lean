import ClosedForm.Proofs.Calculus.Evaluation
import ClosedForm.Proofs.Exponents

/-!
# Elementary expressions

An expression is `Elementary` if the imaginary unit does not occur in it and all its exponents have
a property, here that they stand for integers. The rules keep this where exponents are integer
constants (`elementary_closed`). A derivative also has exponents that are sums of integer
constants; a pass makes constants of them, so the canonical form of an elementary expression is
elementary with constant exponents (`elementary_refines`).
-/

namespace ClosedForm

open ClosedForm.Expr Canonical

/-- The imaginary unit does not occur, and all exponents have the property `E`. -/
inductive Expr.Elementary (E : Expr → Prop) : Expr → Prop
  | constant (c : Rat) : Elementary E (.constant c)
  | symbol (name : String) : Elementary E (.symbol name)
  | add {ts : List Expr} (hts : ∀ t ∈ ts, Elementary E t) : Elementary E (.add ts)
  | mul {fs : List Expr} (hfs : ∀ f ∈ fs, Elementary E f) : Elementary E (.mul fs)
  | pow {base exponent : Expr} (hbase : Elementary E base) (hexponent : E exponent) :
    Elementary E (.pow base exponent)
  | function {f : Func} {arguments : List Expr} (hf : f ≠ .imaginaryUnit)
    (harguments : ∀ a ∈ arguments, Elementary E a) : Elementary E (.function f arguments)

/-- An exponent that stands for an integer. -/
def Expr.IsExponent (e : Expr) : Prop :=
  ∃ n, e.integerExponent? = some n

/-- An integer constant. -/
def Expr.IsInteger (e : Expr) : Prop :=
  ∃ n : ℤ, e = .constant n

theorem Expr.IsInteger.isExponent {e : Expr} (h : e.IsInteger) : e.IsExponent := by
  obtain ⟨n, rfl⟩ := h
  exact ⟨n, integerExponent?_constant n⟩

theorem elementary_hereditary {E : Expr → Prop} :
    Hereditary (· ≠ .imaginaryUnit) (Elementary E) E where
  constant := .constant
  add _ := ⟨fun h => by cases h; assumption, .add⟩
  mul _ := ⟨fun h => by cases h; assumption, .mul⟩
  pow _ _ := ⟨fun h => by cases h; exact ⟨‹_›, ‹_›⟩, fun h => .pow h.1 h.2⟩
  function _ _ := ⟨fun h => by cases h; exact ⟨‹_›, ‹_›⟩, fun h => .function h.1 h.2⟩

/-- Only elementary expressions have values. -/
theorem Functions.elementary_of_eval {A : Type*} [CommRing A] [Algebra ℚ A] {F : Functions A}
    {σ : String → A} {e : Expr} {a : A} (h : F.eval σ e = some a) : Elementary IsExponent e := by
  induction e using Expr.induction generalizing a with
  | node e ih =>
    have ih : ∀ c ∈ e.children, (∃ a, F.eval σ c = some a) → Elementary IsExponent c :=
      fun c hc ⟨_, ha⟩ => ih c hc ha
    cases e with
    | constant c => exact .constant c
    | symbol name => exact .symbol name
    | add ts =>
      obtain ⟨as, has, -⟩ := eval_add_eq_some.mp h
      exact .add fun t ht => ih t ht (eval_of_mem has ht)
    | mul fs =>
      obtain ⟨as, has, -⟩ := eval_mul_eq_some.mp h
      exact .mul fun f hf => ih f hf (eval_of_mem has hf)
    | pow base exponent =>
      obtain ⟨b, n, hb, hn, -⟩ := eval_pow_eq_some.mp h
      exact .pow (ih base (by simp [children]) ⟨b, hb⟩) ⟨n, hn⟩
    | function f arguments =>
      obtain ⟨hf, argument, b, rfl, hb, -⟩ := eval_function_eq_some.mp h
      exact .function hf (by simpa using ih argument (by simp [children]) ⟨b, hb⟩)

/-- The functions of an interpretation give an elementary expression with constant exponents the
value that it has. -/
theorem Interpretation.eval_of_value {K : Type*} [Field K] [CharZero K] {M : Interpretation K}
    {σ : String → K} {e : Expr} {x : K} (he : Elementary IsInteger e) (h : M.value σ e = some x) :
    M.functions.eval σ e = some x := by
  induction he generalizing x with
  | constant c =>
    rw [value_constant] at h
    exact h
  | symbol name =>
    rw [value] at h
    exact h
  | add _ ih =>
    rw [value_add] at h
    obtain ⟨xs, hxs, rfl⟩ := sumValue_eq_some.mp h
    exact Functions.eval_add_eq_some.mpr ⟨xs, forall₂_imp_of_mem hxs fun e he x hx => ih e he hx, rfl⟩
  | mul _ ih =>
    rw [value_mul] at h
    obtain ⟨xs, hxs, rfl⟩ := productValue_eq_some.mp h
    exact Functions.eval_mul_eq_some.mpr ⟨xs, forall₂_imp_of_mem hxs fun e he x hx => ih e he hx, rfl⟩
  | pow _ hexponent ih =>
    obtain ⟨n, rfl⟩ := hexponent
    obtain ⟨b, u, hb, hu, hpow⟩ := value_pow_eq_some.mp h
    cases hu.symm.trans (value_of_integerExponent? (integerExponent?_constant n))
    exact Functions.eval_pow_eq_some.mpr ⟨b, n, ih hb, integerExponent?_constant n,
      (functions_power b n).trans hpow⟩
  | @function f arguments hf _ ih =>
    cases arguments with
    | nil => cases f <;> simp_all [value]
    | cons argument rest =>
      cases rest with
      | nil =>
        rw [value_function] at h
        obtain ⟨b, hb, hfb⟩ := Option.bind_eq_some_iff.mp h
        exact Functions.eval_function_eq_some.mpr
          ⟨hf, argument, b, rfl, ih argument (by simp) hb, hfb⟩
      | cons => cases f <;> simp [value] at h

variable {bounds : Bounds}

/-- The rules keep an elementary expression with integer constants as exponents one. -/
theorem elementary_closed : Closed (· ≠ .imaginaryUnit) (Elementary IsInteger) IsInteger where
  toHereditary := elementary_hereditary
  one := ⟨1, rfl⟩
  sum es hes := by
    have hinteger : ∀ e ∈ es, e.isIntegerConstant = true := by
      intro e he
      obtain ⟨n, rfl⟩ := hes e he
      exact isIntegerConstant_iff.mpr ⟨n, rfl, isInteger_iff.mpr ⟨n, rfl⟩⟩
    obtain ⟨n, hn⟩ := exists_integer_sum hinteger
    exact ⟨n, hn ▸ add_constants fun e he => isConstant_of_isIntegerConstant (hinteger e he)⟩
  fraction q p hq hinteger := by
    obtain ⟨n, hn⟩ := hinteger
    cases hn
    simp [Rational.isInteger] at hq
  multiple hP e r n hn hr he hinteger := by
    obtain ⟨m, rfl⟩ := he
    obtain ⟨k, hk⟩ := hinteger
    cases hk
    have hconstants := multiplyWith_constants _ [(m : Rat), (k : Rat)] ▸ hr
    cases hconstants
    exact ⟨m * k, by simp⟩

/-- Exponents are made constants by one pass. -/
theorem reduces_of_integerExponent? {e : Expr} {n : ℤ} (h : e.integerExponent? = some n) :
    Reduces bounds e (.constant n) := by
  rcases integerExponent?_eq_some.mp h with rfl | ⟨ts, ns, rfl, hts, rfl⟩
  · exact .constant n
  · rw [show ((ns.sum : ℤ) : Rat) = (ns.map (Int.castRingHom Rat)).sum from
      map_list_sum (Int.castRingHom Rat) ns]
    refine .add_constants (List.forall₂_map_right_iff.mpr (hts.imp fun t k hk => ?_))
    rw [hk]
    exact .constant _

theorem eq_constant_of_integerExponent? {e : Expr} {n : ℤ} (he : Normal bounds e)
    (h : e.integerExponent? = some n) : e = .constant n :=
  Except.ok.inj ((pass_empty_normal he).symm.trans (reduces_of_integerExponent? h).pass)

/-- A pass makes integer constants of exponents that stand for integers. -/
theorem elementary_refines : Refines bounds (· ≠ .imaginaryUnit) (Elementary IsInteger) IsInteger
    (Elementary IsExponent) IsExponent where
  closed := elementary_closed
  hereditary := elementary_hereditary
  symbol name := ⟨fun _ => .symbol name, fun _ => .symbol name⟩
  exponent _ := IsInteger.isExponent
  reduces _ h := by
    obtain ⟨n, hn⟩ := h
    exact ⟨_, reduces_of_integerExponent? hn, n, rfl⟩

end ClosedForm
