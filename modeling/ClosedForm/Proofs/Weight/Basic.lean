import ClosedForm.Proofs.Nesting
import Mathlib.Algebra.BigOperators.Group.List.Basic

/-!
# A weight that no rule increases

`weight` and `termWeight` measure an expression, the one as a factor or argument and the other
as a term of a sum, where coefficients count nothing. No rule increases either of them. They
differ by at most one (`weight_le_termWeight`, `termWeight_le_weight`).

What the weight of a power is depends on its exponent: an integer exponent doubles the weight of
the base, since it may be spread over factors; any other exponent adds its own weight and a
constant that pays for collecting. A power of constants that is kept weighs less than one that
becomes a coefficient in front of powers.
-/

namespace ClosedForm

open ClosedForm.Expr Canonical

instance (bounds : Bounds) (b q : Rat) : Decidable (Kept bounds b q) := by
  unfold Kept
  cases basicPower bounds b q with
  | ok r => exact decidable_of_iff (r = .pow (.constant b) (.constant q)) (by simp)
  | error e => exact isFalse (by simp)

/-- The weight of a power of constants to a fractional exponent. -/
def constantPowerWeight (bounds : Bounds) (b q : Rat) : Nat :=
  if Kept bounds b q then if b < 0 ∨ q.floor = 0 then 3 else 4 else 6

/-- The weight of a power with a base of the first and an exponent of the second weight. -/
def powerWeight (bounds : Bounds) (base exponent : Expr) (b e : Nat) : Nat :=
  match exponent with
  | .constant q =>
    if Rational.isInteger q then 2 * b
    else
      match base with
      | .constant c => constantPowerWeight bounds c q
      | _ => 2 * b + e + 6
  | _ => 2 * b + e + 6

mutual

/-- The weight of an expression as a factor or an argument. -/
def weight (bounds : Bounds) : Expr → Nat
  | .constant c => if c = 1 ∨ c = -1 then 0 else 1
  | .symbol _ => 1
  | .add terms => 1 + termWeights bounds terms
  | .mul factors => weights bounds factors
  | .pow base exponent =>
    powerWeight bounds base exponent (weight bounds base) (termWeight bounds exponent)
  | .function _ arguments => 1 + weights bounds arguments

/-- The weight of an expression as a term: coefficients count nothing. -/
def termWeight (bounds : Bounds) : Expr → Nat
  | .constant _ => 0
  | .symbol _ => 2
  | .add terms => termWeights bounds terms
  | .mul (.constant _ :: factors) => 1 + weights bounds factors
  | .mul factors => 1 + weights bounds factors
  | .pow base exponent =>
    1 + powerWeight bounds base exponent (weight bounds base) (termWeight bounds exponent)
  | .function _ arguments => 2 + weights bounds arguments

/-- The weights of expressions as factors or arguments, added up. -/
def weights (bounds : Bounds) : List Expr → Nat
  | [] => 0
  | e :: es => weight bounds e + weights bounds es

/-- The weights of expressions as terms, added up. -/
def termWeights (bounds : Bounds) : List Expr → Nat
  | [] => 0
  | e :: es => termWeight bounds e + termWeights bounds es

end

variable (bounds : Bounds)

/-! ## Lists -/

@[simp] theorem weights_nil : weights bounds [] = 0 := rfl

@[simp] theorem weights_cons (e : Expr) (es : List Expr) :
    weights bounds (e :: es) = weight bounds e + weights bounds es := rfl

@[simp] theorem termWeights_nil : termWeights bounds [] = 0 := rfl

@[simp] theorem termWeights_cons (e : Expr) (es : List Expr) :
    termWeights bounds (e :: es) = termWeight bounds e + termWeights bounds es := rfl

theorem weights_eq_sum (es : List Expr) : weights bounds es = (es.map (weight bounds)).sum := by
  induction es with
  | nil => rfl
  | cons e es ih => rw [weights_cons, ih, List.map_cons, List.sum_cons]

theorem termWeights_eq_sum (es : List Expr) :
    termWeights bounds es = (es.map (termWeight bounds)).sum := by
  induction es with
  | nil => rfl
  | cons e es ih => rw [termWeights_cons, ih, List.map_cons, List.sum_cons]

@[simp] theorem weights_append (es fs : List Expr) :
    weights bounds (es ++ fs) = weights bounds es + weights bounds fs := by
  simp only [weights_eq_sum, List.map_append, List.sum_append]

theorem weights_perm {es fs : List Expr} (h : es.Perm fs) : weights bounds es = weights bounds fs := by
  simp only [weights_eq_sum, (h.map _).sum_eq]

@[simp] theorem termWeights_append (es fs : List Expr) :
    termWeights bounds (es ++ fs) = termWeights bounds es + termWeights bounds fs := by
  simp only [termWeights_eq_sum, List.map_append, List.sum_append]

theorem termWeights_perm {es fs : List Expr} (h : es.Perm fs) :
    termWeights bounds es = termWeights bounds fs := by
  simp only [termWeights_eq_sum, (h.map _).sum_eq]

omit bounds in
/-- A sum is at most what bounds of its parts add up to, and if it is no less, then no part is less than
its bound. -/
theorem sum_le_of_forall₂ {α β : Type} {f : α → Nat} {g : β → Nat} {as : List α} {bs : List β}
    (h : List.Forall₂ (fun a b => g b ≤ f a) as bs) :
    (bs.map g).sum ≤ (as.map f).sum ∧
      ((as.map f).sum ≤ (bs.map g).sum → List.Forall₂ (fun a b => f a ≤ g b) as bs) := by
  induction h with
  | nil => exact ⟨Nat.le_refl _, fun _ => .nil⟩
  | cons hab _ ih =>
    simp only [List.map_cons, List.sum_cons]
    exact ⟨by omega, fun htight => .cons (by omega) (ih.2 (by omega))⟩

/-! ## Nodes -/

@[simp] theorem weight_add (ts : List Expr) :
    weight bounds (.add ts) = 1 + termWeights bounds ts := rfl

@[simp] theorem weight_mul (fs : List Expr) : weight bounds (.mul fs) = weights bounds fs := rfl

@[simp] theorem weight_function (f : Func) (args : List Expr) :
    weight bounds (.function f args) = 1 + weights bounds args := rfl

@[simp] theorem termWeight_constant (c : Rat) : termWeight bounds (.constant c) = 0 := rfl

@[simp] theorem termWeight_add (ts : List Expr) :
    termWeight bounds (.add ts) = termWeights bounds ts := rfl

@[simp] theorem termWeight_mul_constant (c : Rat) (fs : List Expr) :
    termWeight bounds (.mul (.constant c :: fs)) = 1 + weights bounds fs := rfl

theorem weight_constant_le (c : Rat) : weight bounds (.constant c) ≤ 1 := by
  rw [weight]
  split <;> omega

theorem weight_constant_of_ne {c : Rat} (h : c ≠ 1) (h' : c ≠ -1) :
    weight bounds (.constant c) = 1 := by
  rw [weight, if_neg (by simp [h, h'])]

/-- A product of constants weighs no more than its factors. -/
theorem weight_constant_mul (c d : Rat) :
    weight bounds (.constant (c * d)) ≤ weight bounds (.constant c) + weight bounds (.constant d) := by
  have hle := weight_constant_le bounds (c * d)
  by_cases hc : c = 1 ∨ c = -1
  · by_cases hd : d = 1 ∨ d = -1
    · have hcd : c * d = 1 ∨ c * d = -1 := by
        rcases hc with rfl | rfl <;> rcases hd with rfl | rfl <;> norm_num
      simp [weight, hcd]
    · simp only [weight, hd, if_false] at *
      omega
  · simp only [weight, hc, if_false] at *
    omega

theorem termWeight_of_not_isMul {e : Expr} (hconstant : e.isConstant = false)
    (hadd : e.isAdd = false) (hmul : e.isMul = false) :
    termWeight bounds e = 1 + weight bounds e := by
  cases e with
  | constant => cases hconstant
  | add => cases hadd
  | mul => cases hmul
  | symbol => rw [termWeight, weight]
  | pow => rw [termWeight, weight]
  | function => rw [termWeight, weight]; omega

/-- The leading coefficient of a product is what its weight as a term leaves out. -/
theorem termWeight_mul (fs : List Expr) :
    (∃ c gs, fs = .constant c :: gs ∧ termWeight bounds (.mul fs) = 1 + weights bounds gs) ∨
      termWeight bounds (.mul fs) = 1 + weights bounds fs := by
  cases fs with
  | nil => exact .inr (by rw [termWeight]; simp)
  | cons f fs =>
    cases f with
    | constant c => exact .inl ⟨c, fs, rfl, termWeight_mul_constant bounds c fs⟩
    | _ => exact .inr (by rw [termWeight]; simp)

/-- The two weights differ by at most one. -/
theorem weights_near (e : Expr) : termWeight bounds e ≤ 1 + weight bounds e ∧
    weight bounds e ≤ 1 + termWeight bounds e := by
  cases hmul : e.isMul with
  | true =>
    cases e with
    | mul fs =>
      rcases termWeight_mul bounds fs with ⟨c, gs, rfl, h⟩ | h
      · have := weight_constant_le bounds c
        rw [h, weight_mul, weights_cons]
        omega
      · rw [h, weight_mul]
        omega
    | _ => cases hmul
  | false =>
    cases hconstant : e.isConstant with
    | true =>
      obtain ⟨c, rfl⟩ := isConstant_iff.mp hconstant
      rw [termWeight_constant]
      exact ⟨Nat.zero_le _, weight_constant_le bounds c⟩
    | false =>
      cases hadd : e.isAdd with
      | true =>
        cases e with
        | add ts =>
          rw [termWeight_add, weight_add]
          omega
        | _ => cases hadd
      | false =>
        rw [termWeight_of_not_isMul bounds hconstant hadd hmul]
        omega

theorem termWeight_le_weight (e : Expr) : termWeight bounds e ≤ 1 + weight bounds e :=
  (weights_near bounds e).1

theorem weight_le_termWeight (e : Expr) : weight bounds e ≤ 1 + termWeight bounds e :=
  (weights_near bounds e).2

/-! ## Builders -/

@[simp] theorem weight_product (es : List Expr) :
    weight bounds (Expr.product es) = weights bounds es := by
  match es with
  | [] => simp [Expr.product, Expr.one, weight]
  | [e] => simp [Expr.product]
  | _ :: _ :: _ => simp [Expr.product]

@[simp] theorem termWeight_sum (es : List Expr) :
    termWeight bounds (Expr.sum es) = termWeights bounds es := by
  match es with
  | [] => simp [Expr.sum, Expr.zero]
  | [e] => simp [Expr.sum]
  | _ :: _ :: _ => simp [Expr.sum]

/-- A coefficient counts nothing. -/
theorem termWeight_product_constant (c : Rat) (es : List Expr) :
    termWeight bounds (Expr.product (.constant c :: es)) ≤ 1 + weights bounds es := by
  cases es <;> simp [Expr.product]

theorem termWeight_scale (c : Rat) (e : Expr) :
    termWeight bounds (e.scale c) ≤ 1 + weight bounds e := by
  unfold Expr.scale
  split
  · exact termWeight_le_weight bounds e
  · split
    · next fs =>
      rw [weight_mul]
      exact termWeight_product_constant bounds c fs
    · simpa using termWeight_product_constant bounds c [e]

/-- What is left of a term that is no constant weighs as much as the term, without the one
unit that terms count for. -/
theorem weight_splitCoefficient {e : Expr} (hconstant : e.isConstant = false)
    (hadd : e.isAdd = false) :
    1 + weight bounds e.splitCoefficient.2 = termWeight bounds e := by
  cases e with
  | constant => cases hconstant
  | add => cases hadd
  | mul fs =>
    match fs with
    | [] => simp [Expr.splitCoefficient, termWeight]
    | f :: fs => cases f <;> simp [Expr.splitCoefficient, termWeight]
  | _ => exact (termWeight_of_not_isMul bounds rfl rfl rfl).symm

end ClosedForm
