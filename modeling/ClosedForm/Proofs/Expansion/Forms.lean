import ClosedForm.Proofs.Failures
import ClosedForm.Proofs.Reduction
import ClosedForm.Proofs.Value.Multivariate

/-!
# Canonical forms of polynomial expressions

The rules evaluate all powers of constants in a polynomial expression with moderate exponents, and what they
make of it is a `PolynomialForm`: a normal polynomial expression in which every power has a base that is no
constant. Its factors that are no constants are powers `raise b n` of bases that are symbols or sums
(`PolynomialForm.exists_raise`).

The degree of an expression is read off its nodes (`Expr.degree`), so terms that would cancel count. In a
polynomial form it is zero for constants only (`PolynomialForm.degree_pos`).
-/

namespace ClosedForm

open ClosedForm.Expr Canonical

namespace Expr

theorem constant_natCast_zero : constant ((0 : Nat) : Rat) = zero := by
  rw [Nat.cast_zero]
  rfl

theorem constant_natCast_one : constant ((1 : Nat) : Rat) = one := by
  rw [Nat.cast_one]
  rfl

/-! ## Degrees -/

/-- The degree of a node from those of its children. -/
def degreeStep (e : Expr) (children : List Nat) : Nat :=
  match e, children with
  | .constant _, _ => 0
  | .symbol _, _ => 1
  | .add _, terms => terms.foldl max 0
  | .mul _, factors => factors.sum
  | .pow _ (.constant n), base :: _ => base * n.num.toNat
  | _, _ => 0

/-- The total degree that a polynomial expression shows, where no terms cancel: the largest one of the
terms of a sum, the sum of those of the factors of a product, and a multiple for a power. -/
def degree : Expr → Nat :=
  recurse degreeStep

theorem degree_eq (e : Expr) : e.degree = degreeStep e (e.children.map degree) :=
  recurse_eq _ _

@[simp] theorem degree_constant (c : Rat) : (constant c).degree = 0 := rfl

@[simp] theorem degree_symbol (name : String) : (symbol name).degree = 1 := rfl

theorem degree_add_le_iff {ts : List Expr} {d : Nat} :
    (add ts).degree ≤ d ↔ ∀ t ∈ ts, t.degree ≤ d := by
  rw [degree_eq]
  show (ts.map degree).foldl max 0 ≤ d ↔ _
  rw [foldl_max_le]
  simp

@[simp] theorem degree_mul (fs : List Expr) : (mul fs).degree = (fs.map degree).sum :=
  degree_eq _

theorem degree_le_of_mem_add {t : Expr} {ts : List Expr} (h : t ∈ ts) : t.degree ≤ (add ts).degree :=
  degree_add_le_iff.mp le_rfl t h

theorem degree_le_of_mem_mul {f : Expr} {fs : List Expr} (h : f ∈ fs) : f.degree ≤ (mul fs).degree := by
  rw [degree_mul]
  exact List.single_le_sum (fun _ _ => Nat.zero_le _) _ (List.mem_map_of_mem h)

@[simp] theorem degree_pow (base : Expr) (n : Nat) :
    (pow base (constant n)).degree = base.degree * n := by
  rw [degree_eq]
  simp [degreeStep, children]

theorem degree_product (fs : List Expr) : (product fs).degree = (fs.map degree).sum := by
  match fs with
  | [] => rfl
  | [f] => simp [product]
  | _ :: _ :: _ => exact degree_mul _

theorem degrees_withFactor (c : Rat) (gs : List Expr) :
    ((withFactor c gs).map degree).sum = (gs.map degree).sum := by
  unfold withFactor
  split <;> simp

/-- Opening products keeps the degree. -/
theorem degrees_factorsList (es : List Expr) :
    ((factorsList es).map degree).sum = (es.map degree).sum :=
  sum_map_factorsList degree_mul es

/-- The polynomial expressions without empty sums and products in which no exponent exceeds the limit. -/
inductive PolynomialWithin (limit : Nat) : Expr → Prop
  | constant (c : Rat) : PolynomialWithin limit (.constant c)
  | symbol (name : String) : PolynomialWithin limit (.symbol name)
  | add {ts : List Expr} (hne : ts ≠ []) (h : ∀ t ∈ ts, PolynomialWithin limit t) :
    PolynomialWithin limit (.add ts)
  | mul {fs : List Expr} (hne : fs ≠ []) (h : ∀ f ∈ fs, PolynomialWithin limit f) :
    PolynomialWithin limit (.mul fs)
  | pow {base : Expr} {n : Nat} (hn : n ≤ limit) (h : PolynomialWithin limit base) :
    PolynomialWithin limit (.pow base (.constant n))

/-- The polynomial expressions in which the base and the exponent of every power satisfy a condition. -/
inductive PowersSatisfy (P : Expr → Nat → Prop) : Expr → Prop
  | constant (c : Rat) : PowersSatisfy P (.constant c)
  | symbol (name : String) : PowersSatisfy P (.symbol name)
  | add {ts : List Expr} (h : ∀ t ∈ ts, PowersSatisfy P t) : PowersSatisfy P (.add ts)
  | mul {fs : List Expr} (h : ∀ f ∈ fs, PowersSatisfy P f) : PowersSatisfy P (.mul fs)
  | pow {base : Expr} {n : Nat} (hn : P base n) (h : PowersSatisfy P base) :
    PowersSatisfy P (.pow base (.constant n))

theorem PowersSatisfy.mono {P Q : Expr → Nat → Prop} {e : Expr} (h : e.PowersSatisfy P)
    (himp : ∀ base n, P base n → Q base n) : e.PowersSatisfy Q := by
  induction h with
  | constant c => exact .constant c
  | symbol name => exact .symbol name
  | add _ ih => exact .add ih
  | mul _ ih => exact .mul ih
  | pow hn _ ih => exact .pow (himp _ _ hn) ih

theorem PowersSatisfy.isPolynomial {P : Expr → Nat → Prop} {e : Expr} (h : e.PowersSatisfy P) :
    e.IsPolynomial := by
  induction h with
  | constant c => exact .constant c
  | symbol name => exact .symbol name
  | add _ ih => exact .add ih
  | mul _ ih => exact .mul ih
  | pow _ _ ih => exact .pow _ ih

theorem PowersSatisfy.of_terms {P : Expr → Nat → Prop} {e : Expr} (h : ∀ t ∈ e.terms, t.PowersSatisfy P) :
    e.PowersSatisfy P := by
  cases e with
  | add ts => exact .add h
  | _ => exact h _ (List.mem_singleton_self _)

theorem PowersSatisfy.product {P : Expr → Nat → Prop} {fs : List Expr} (h : ∀ f ∈ fs, f.PowersSatisfy P) :
    (Expr.product fs).PowersSatisfy P := by
  match fs with
  | [] => exact .constant 1
  | [f] => exact h f (by simp)
  | _ :: _ :: _ => exact .mul h

theorem PolynomialWithin.powersSatisfy {limit : Nat} {e : Expr} (h : e.PolynomialWithin limit) :
    e.PowersSatisfy fun _ n => n ≤ limit := by
  induction h with
  | constant c => exact .constant c
  | symbol name => exact .symbol name
  | add _ _ ih => exact .add ih
  | mul _ _ ih => exact .mul ih
  | pow hn _ ih => exact .pow hn ih

/-- Polynomial expressions in which no power of a constant is left. -/
inductive Evaluated : Expr → Prop
  | constant (c : Rat) : Evaluated (.constant c)
  | symbol (name : String) : Evaluated (.symbol name)
  | add {ts : List Expr} (h : ∀ t ∈ ts, Evaluated t) : Evaluated (.add ts)
  | mul {fs : List Expr} (h : ∀ f ∈ fs, Evaluated f) : Evaluated (.mul fs)
  | pow {base : Expr} (n : Nat) (hbase : base.isConstant = false) (h : Evaluated base) :
    Evaluated (.pow base (.constant n))

namespace Evaluated

theorem isPolynomial {e : Expr} (h : e.Evaluated) : e.IsPolynomial := by
  induction h with
  | constant c => exact .constant c
  | symbol name => exact .symbol name
  | add _ ih => exact .add ih
  | mul _ ih => exact .mul ih
  | pow n _ _ ih => exact .pow n ih

theorem of_mem_add {ts : List Expr} (h : (Expr.add ts).Evaluated) : ∀ t ∈ ts, t.Evaluated := by
  cases h with
  | add h => exact h

theorem of_mem_mul {fs : List Expr} (h : (Expr.mul fs).Evaluated) : ∀ f ∈ fs, f.Evaluated := by
  cases h with
  | mul h => exact h

theorem of_terms {e : Expr} (h : ∀ t ∈ e.terms, t.Evaluated) : e.Evaluated := by
  cases e with
  | add ts => exact .add h
  | _ => exact h _ (List.mem_singleton_self _)

theorem of_mem_factors {e f : Expr} (h : e.Evaluated) (hf : f ∈ e.factors) : f.Evaluated :=
  holds_of_mem_factors (fun _ => of_mem_mul) h hf

end Evaluated

theorem evaluated_product_iff {fs : List Expr} :
    (product fs).Evaluated ↔ ∀ f ∈ fs, f.Evaluated := by
  match fs with
  | [] => exact ⟨fun _ f hf => absurd hf List.not_mem_nil, fun _ => .constant 1⟩
  | [f] => simp [product]
  | _ :: _ :: _ => exact ⟨Evaluated.of_mem_mul, .mul⟩

theorem evaluated_withFactor_iff {c : Rat} {gs : List Expr} :
    (∀ f ∈ withFactor c gs, f.Evaluated) ↔ ∀ g ∈ gs, g.Evaluated := by
  unfold withFactor
  split
  · exact Iff.rfl
  · simp [Evaluated.constant]

end Expr

namespace Canonical

variable {bounds : Bounds}

/-- The normal expressions that the rules make of polynomial expressions. -/
structure PolynomialForm (bounds : Bounds) (e : Expr) : Prop where
  normal : Normal bounds e
  evaluated : e.Evaluated

namespace PolynomialForm

theorem constant (c : Rat) : PolynomialForm bounds (.constant c) :=
  ⟨.constant c, .constant c⟩

theorem symbol (name : String) : PolynomialForm bounds (.symbol name) :=
  ⟨.symbol name, .symbol name⟩

theorem of_mem_terms {e t : Expr} (h : PolynomialForm bounds e) (ht : t ∈ e.terms) :
    PolynomialForm bounds t := by
  refine ⟨(h.normal.of_mem_terms ht).1, ?_⟩
  cases e with
  | add ts => exact h.evaluated.of_mem_add t ht
  | _ =>
    rw [List.mem_singleton.mp ht]
    exact h.evaluated

theorem of_mem_mul {fs : List Expr} (h : PolynomialForm bounds (.mul fs)) :
    ∀ f ∈ fs, PolynomialForm bounds f :=
  fun f hf => ⟨h.normal.of_mem_children hf, h.evaluated.of_mem_mul f hf⟩

theorem of_mem_factors {e f : Expr} (h : PolynomialForm bounds e) (hf : f ∈ e.factors) :
    PolynomialForm bounds f := by
  refine ⟨?_, h.evaluated.of_mem_factors hf⟩
  cases hmul : e.isMul with
  | false =>
    rw [factors_of_not_isMul hmul, List.mem_singleton] at hf
    rw [hf]
    exact h.normal
  | true =>
    cases e with
    | mul fs =>
      rw [factors_mul, factorsList_of_not_isMul fun g hg => h.normal.isMul_of_mem_mul hg] at hf
      exact h.normal.of_mem_children hf
    | _ => cases hmul

end PolynomialForm

/-! ## Powers of symbols and sums -/

/-- What the factors of polynomial forms are powers of. -/
def IsBase : Expr → Prop
  | .symbol _ | .add _ => True
  | _ => False

/-- The power of a base as the rules write it. -/
def raise (base : Expr) (n : Nat) : Expr :=
  if n = 1 then base else .pow base (.constant n)

@[simp] theorem raise_one (base : Expr) : raise base 1 = base :=
  if_pos rfl

theorem raise_of_ne {n : Nat} (hn : n ≠ 1) (base : Expr) : raise base n = .pow base (.constant n) :=
  if_neg hn

@[simp] theorem degree_raise (base : Expr) (n : Nat) : (raise base n).degree = base.degree * n := by
  unfold raise
  split
  · next hn => rw [hn, mul_one]
  · exact degree_pow base n

@[simp] theorem polynomial_raise (base : Expr) (n : Nat) :
    (raise base n).polynomial = base.polynomial ^ n := by
  unfold raise
  split
  · next hn => rw [hn, pow_one]
  · exact polynomial_pow base n

namespace IsBase

variable {base : Expr} {n : Nat}

theorem inert (h : IsBase base) (hzero : n ≠ 0) (hone : n ≠ 1) : Inert base (.constant n) where
  exponent_ne_zero heq := hzero (by simpa [Expr.zero] using heq)
  exponent_ne_one heq := hone (by simpa [Expr.one] using heq)
  base_ne_one heq := by
    rw [heq] at h
    exact h
  not_constants _ := by cases base <;> first | rfl | exact h.elim
  not_opens _ _ _ hopens := by cases base <;> first | exact h | exact hopens

theorem isConstant_raise (h : IsBase base) (n : Nat) : (raise base n).isConstant = false := by
  unfold raise
  split
  · cases base <;> first | rfl | exact h.elim
  · rfl

theorem isMul_raise (h : IsBase base) (n : Nat) : (raise base n).isMul = false := by
  unfold raise
  split
  · cases base <;> first | rfl | exact h.elim
  · rfl

theorem factorBase_raise (h : IsBase base) (n : Nat) : factorBase (raise base n) = base := by
  unfold raise
  split
  · cases base <;> first | rfl | exact h.elim
  · rfl

theorem isConstant (h : IsBase base) : base.isConstant = false := by
  simpa using h.isConstant_raise 1

theorem power (h : IsBase base) (hn : n ≠ 0) :
    power bounds base (.constant n) = .ok (raise base n) := by
  by_cases hone : n = 1
  · rw [hone, raise_one, constant_natCast_one, power_one]
  · rw [raise_of_ne hone]
    exact power_of_shape (.inert (h.inert hn hone))

theorem form_raise (h : IsBase base) (hform : PolynomialForm bounds base) (hn : n ≠ 0) :
    PolynomialForm bounds (raise base n) := by
  by_cases hone : n = 1
  · rwa [hone, raise_one]
  · rw [raise_of_ne hone]
    exact ⟨.pow hform.normal (.constant _) (.inert (h.inert hn hone)),
      .pow n h.isConstant hform.evaluated⟩

end IsBase

namespace PolynomialForm

/-- A power that is a polynomial form has a base that is a symbol or a sum, and a natural exponent. -/
theorem of_pow {base exponent : Expr} (h : PolynomialForm bounds (.pow base exponent)) :
    ∃ n : Nat, exponent = .constant n ∧ n ≠ 0 ∧ n ≠ 1 ∧ IsBase base ∧ PolynomialForm bounds base := by
  obtain ⟨hnormal, hevaluated⟩ := h
  cases hevaluated with
  | pow n hconstant hbase =>
    cases hnormal with
    | pow hbaseNormal _ hshape =>
      cases hshape with
      | kept => cases hconstant
      | inert hinert =>
        have hbaseForm : IsBase base := by
          have hopens := hinert.not_opens n rfl (by simp [Rational.isInteger])
          cases hbase with
          | symbol | add => trivial
          | constant | mul | pow => exact absurd trivial hopens
        refine ⟨n, rfl, ?_, ?_, hbaseForm, hbaseNormal, hbase⟩
        · rintro rfl
          exact hinert.exponent_ne_zero (by simp [Expr.zero])
        · rintro rfl
          exact hinert.exponent_ne_one (by simp [Expr.one])

/-- A factor is a constant, or a power of its base. -/
theorem exists_raise {f : Expr} (h : PolynomialForm bounds f) (hconstant : f.isConstant = false)
    (hmul : f.isMul = false) : ∃ n : Nat, n ≠ 0 ∧ IsBase (factorBase f) ∧
      PolynomialForm bounds (factorBase f) ∧ factorExponent f = .constant n ∧
      f = raise (factorBase f) n := by
  have hevaluated := h.evaluated
  cases f with
  | pow base exponent =>
    obtain ⟨n, rfl, hzero, hone, hbase, hform⟩ := h.of_pow
    exact ⟨n, hzero, hbase, hform, rfl, (raise_of_ne hone base).symm⟩
  | symbol | add =>
    exact ⟨1, one_ne_zero, trivial, h, by simp [factorExponent, Expr.one], (raise_one _).symm⟩
  | constant => cases hconstant
  | mul => cases hmul
  | function => cases hevaluated

/-- Only constants have degree zero. -/
theorem degree_pos {e : Expr} (h : PolynomialForm bounds e) (hconstant : e.isConstant = false) :
    e.degree ≠ 0 := by
  obtain ⟨hnormal, hevaluated⟩ := h
  induction hevaluated with
  | constant => cases hconstant
  | symbol => simp
  | @add ts hts ih =>
    intro hzero
    -- Of two terms with different rests one is no constant.
    have hall : ∀ t ∈ ts, t.isConstant = true := by
      intro t ht
      by_contra hnot
      have hle : (Expr.add ts).degree ≤ 0 := hzero.le
      have hdegree := degree_add_le_iff.mp hle t ht
      exact ih t ht (by simpa using hnot) (hnormal.of_mem_children ht) (Nat.le_zero.mp hdegree)
    cases hnormal with
    | add _ hshape =>
      match ts, hshape.two_le with
      | s :: t :: ts, _ =>
        obtain ⟨c, rfl⟩ := isConstant_iff.mp (hall s (by simp))
        obtain ⟨d, rfl⟩ := isConstant_iff.mp (hall t (by simp))
        have hdistinct := hshape.distinct
        simp [Expr.splitCoefficient] at hdistinct
  | @mul fs hfs ih =>
    obtain ⟨c, gs, rfl, -, hshape⟩ := hnormal.exists_withFactor
    obtain ⟨g, hg⟩ := List.exists_mem_of_ne_nil gs hshape.ne_nil
    have hmem := mem_withFactor_of_mem hg c
    have hdegree := ih g hmem (hshape.not_constant g hg) (hnormal.of_mem_children hmem)
    have hle := degree_le_of_mem_mul hmem
    omega
  | pow n hbase hevaluated ih =>
    have hform : PolynomialForm bounds (.pow _ (.constant (n : Rat))) := ⟨hnormal, .pow n hbase hevaluated⟩
    obtain ⟨m, heq, hm, -, -, hinner⟩ := hform.of_pow
    obtain rfl : n = m := by simpa using heq
    rw [degree_pow]
    exact mul_ne_zero (ih hbase hinner.normal) hm

/-- No exponent exceeds the degree. -/
theorem powersSatisfy {e : Expr} (h : PolynomialForm bounds e) {d : Nat} (hdegree : e.degree ≤ d) :
    e.PowersSatisfy fun _ n => n ≤ d := by
  obtain ⟨hnormal, hevaluated⟩ := h
  induction hevaluated with
  | constant c => exact .constant c
  | symbol name => exact .symbol name
  | add _ ih =>
    exact .add fun t ht => ih t ht (degree_add_le_iff.mp hdegree t ht) (hnormal.of_mem_children ht)
  | mul _ ih =>
    exact .mul fun f hf => ih f hf ((degree_le_of_mem_mul hf).trans hdegree) (hnormal.of_mem_children hf)
  | @pow base n hconstant hbase ih =>
    obtain ⟨m, heq, hn, -, -, hform⟩ := of_pow ⟨hnormal, .pow n hconstant hbase⟩
    obtain rfl : n = m := by simpa using heq
    rw [degree_pow] at hdegree
    have hpos := hform.degree_pos hconstant
    exact .pow ((Nat.le_mul_of_pos_left n (Nat.pos_of_ne_zero hpos)).trans hdegree)
      (ih ((Nat.le_mul_of_pos_right base.degree (Nat.pos_of_ne_zero hn)).trans hdegree) hform.normal)

end PolynomialForm

end Canonical

end ClosedForm
