import ClosedForm.Proofs.Text.Places
import ClosedForm.Proofs.Results
import Mathlib.Algebra.BigOperators.Group.List.Basic
import Mathlib.Algebra.CharZero.Defs
import Mathlib.Algebra.Field.Basic
import Mathlib.Algebra.Order.Field.Rat
import Mathlib.Data.Rat.Cast.CharZero
import Mathlib.Tactic.Ring

/-!
# Values that texts keep

Writing an expression regroups products, moves signs and turns negative powers into divisors, but it
applies no rule. So it keeps values under far fewer laws than the rules need: a `Semantics` leaves the
functions and the imaginary unit open, and asks of the power what division says.

`M.Matches σ d e` says that `d` has the value of `e` wherever `e` has one, `M.Divides σ d e` that `e` is
`1/d` there, and `M.States σ f e` that the formula `f` states something that matches `e`. The lemmas
follow the ways in which formulas are made.
-/

namespace ClosedForm

/-- A meaning of the functions and of the power, undefined where they give `none`, in which negative
exponents divide. -/
structure Semantics (K : Type*) [Field K] [CharZero K] where
  i : K
  apply : Func → K → Option K
  pow : K → K → Option K
  pow_one : ∀ b, pow b 1 = some b
  pow_neg_one : ∀ b, b ≠ 0 → pow b (-1) = some (1 / b)
  /-- Where `b^(-q)` is defined, so is `b^q`, and it is the reciprocal of that. -/
  pow_neg : ∀ (b : K) (q : ℚ) (x : K), 0 < q → pow b (-q) = some x →
    ∃ y, pow b q = some y ∧ y ≠ 0 ∧ x = 1 / y

namespace Semantics

open ClosedForm.Expr

variable {K : Type*} [Field K] [CharZero K] (M : Semantics K) (σ : String → K)

/-! ## Values -/

/-- The value of a node from the values of its children, all of which it needs. -/
def valueStep (e : Expr) (values : List (Option K)) : Option K :=
  match e, values with
  | .constant c, _ => some c
  | .symbol name, _ => some (σ name)
  | .add _, values => (values.mapM id).map List.sum
  | .mul _, values => (values.mapM id).map List.prod
  | .pow _ _, [base, exponent] => base.bind fun b => exponent.bind (M.pow b)
  | .function .imaginaryUnit _, [] => some M.i
  | .function f _, [argument] => argument.bind (M.apply f)
  | _, _ => none

/-- The value of an expression where the symbols have the values `σ`; it has one only if all its
subexpressions do. -/
def value : Expr → Option K :=
  recurse (valueStep M σ)

/-- The expressions have these values. -/
def Values (es : List Expr) (xs : List K) : Prop :=
  List.Forall₂ (fun e x => M.value σ e = some x) es xs

variable {M σ}

theorem value_eq (e : Expr) : M.value σ e = M.valueStep σ e (e.children.map (M.value σ)) :=
  recurse_eq _ _

@[simp] theorem value_constant (c : Rat) : M.value σ (.constant c) = some (c : K) := rfl

theorem value_call {f : Func} (a : Expr) :
    M.value σ (.call f a) = (M.value σ a).bind (M.apply f) := by
  cases f <;> rfl

theorem mapM_values {es : List Expr} {xs : List K} :
    (es.map (M.value σ)).mapM id = some xs ↔ M.Values σ es xs := by
  rw [List.mapM_map]
  exact option_mapM_eq_some

theorem value_add_eq_some {ts : List Expr} {x : K} :
    M.value σ (.add ts) = some x ↔ ∃ xs, M.Values σ ts xs ∧ xs.sum = x := by
  rw [value_eq]
  simp only [← mapM_values]
  exact Option.map_eq_some_iff

theorem value_mul_eq_some {fs : List Expr} {x : K} :
    M.value σ (.mul fs) = some x ↔ ∃ xs, M.Values σ fs xs ∧ xs.prod = x := by
  rw [value_eq]
  simp only [← mapM_values]
  exact Option.map_eq_some_iff

theorem value_pow_eq_some {b u : Expr} {x : K} :
    M.value σ (.pow b u) = some x ↔
      ∃ y z, M.value σ b = some y ∧ M.value σ u = some z ∧ M.pow y z = some x := by
  show (M.value σ b).bind (fun b => (M.value σ u).bind (M.pow b)) = some x ↔ _
  simp [Option.bind_eq_some_iff]

theorem values_append {es fs : List Expr} {xs : List K} :
    M.Values σ (es ++ fs) xs ↔ ∃ ys zs, M.Values σ es ys ∧ M.Values σ fs zs ∧ ys ++ zs = xs := by
  constructor
  · intro h
    induction es generalizing xs with
    | nil => exact ⟨[], xs, .nil, h, rfl⟩
    | cons e es ih =>
      obtain ⟨x, rest, hx, hrest, rfl⟩ := List.forall₂_cons_left_iff.mp h
      obtain ⟨ys, zs, hys, hzs, rfl⟩ := ih hrest
      exact ⟨x :: ys, zs, .cons hx hys, hzs, rfl⟩
  · rintro ⟨ys, zs, hys, hzs, rfl⟩
    exact List.rel_append hys hzs

/-- Factors may be multiplied in two groups. -/
theorem value_mul_append_eq_some {es fs : List Expr} {x : K} :
    M.value σ (.mul (es ++ fs)) = some x ↔
      ∃ y z, M.value σ (.mul es) = some y ∧ M.value σ (.mul fs) = some z ∧ x = y * z := by
  simp only [value_mul_eq_some, values_append]
  constructor
  · rintro ⟨_, ⟨ys, zs, hys, hzs, rfl⟩, rfl⟩
    exact ⟨_, _, ⟨ys, hys, rfl⟩, ⟨zs, hzs, rfl⟩, List.prod_append⟩
  · rintro ⟨_, _, ⟨ys, hys, rfl⟩, ⟨zs, hzs, rfl⟩, rfl⟩
    exact ⟨_, ⟨ys, zs, hys, hzs, rfl⟩, List.prod_append⟩

theorem value_mul_singleton (e : Expr) : M.value σ (.mul [e]) = M.value σ e := by
  refine Option.ext fun x => ?_
  rw [value_mul_eq_some]
  constructor
  · rintro ⟨xs, hxs, rfl⟩
    match xs, hxs with
    | [y], .cons hy .nil => simpa using hy
  · intro hx
    exact ⟨[x], .cons hx .nil, by simp⟩

theorem value_mul_cons_eq_some {e : Expr} {es : List Expr} {x : K} :
    M.value σ (.mul (e :: es)) = some x ↔
      ∃ y z, M.value σ e = some y ∧ M.value σ (.mul es) = some z ∧ x = y * z := by
  rw [← List.singleton_append, value_mul_append_eq_some, value_mul_singleton]

theorem value_neg_eq_some {e : Expr} {x : K} :
    M.value σ e.neg = some x ↔ ∃ y, M.value σ e = some y ∧ x = -y := by
  rw [Expr.neg, value_mul_cons_eq_some, value_mul_singleton]
  simp [Expr.integer]

/-! ## Expressions with the same values -/

variable (M σ)

/-- `d` has the value of `e` wherever `e` has one. -/
def Matches (d e : Expr) : Prop :=
  ∀ x, M.value σ e = some x → M.value σ d = some x

/-- `e` is `1/d` wherever `e` has a value. -/
def Divides (d e : Expr) : Prop :=
  ∀ x, M.value σ e = some x → ∃ y, M.value σ d = some y ∧ y ≠ 0 ∧ x = 1 / y

variable {M σ}

theorem Matches.refl (e : Expr) : M.Matches σ e e :=
  fun _ h => h

theorem Matches.trans {a b c : Expr} (hab : M.Matches σ a b) (hbc : M.Matches σ b c) :
    M.Matches σ a c :=
  fun x h => hab x (hbc x h)

theorem Values.matches {ds es : List Expr} (h : List.Forall₂ (M.Matches σ) ds es) {xs : List K}
    (hes : M.Values σ es xs) : M.Values σ ds xs := by
  induction h generalizing xs with
  | nil => exact hes
  | cons hfirst _ ih =>
    cases hes with
    | cons hx hxs => exact .cons (hfirst _ hx) (ih hxs)

theorem matches_add {ds es : List Expr} (h : List.Forall₂ (M.Matches σ) ds es) :
    M.Matches σ (.add ds) (.add es) := by
  intro x hx
  obtain ⟨xs, hxs, rfl⟩ := value_add_eq_some.mp hx
  exact value_add_eq_some.mpr ⟨xs, hxs.matches h, rfl⟩

theorem matches_mul {ds es : List Expr} (h : List.Forall₂ (M.Matches σ) ds es) :
    M.Matches σ (.mul ds) (.mul es) := by
  intro x hx
  obtain ⟨xs, hxs, rfl⟩ := value_mul_eq_some.mp hx
  exact value_mul_eq_some.mpr ⟨xs, hxs.matches h, rfl⟩

theorem matches_pow {a b u v : Expr} (hbase : M.Matches σ a b) (hexponent : M.Matches σ u v) :
    M.Matches σ (.pow a u) (.pow b v) := by
  intro x hx
  obtain ⟨y, z, hy, hz, hpow⟩ := value_pow_eq_some.mp hx
  exact value_pow_eq_some.mpr ⟨y, z, hbase y hy, hexponent z hz, hpow⟩

theorem matches_call {f : Func} {d e : Expr} (h : M.Matches σ d e) :
    M.Matches σ (.call f d) (.call f e) := by
  intro x hx
  rw [value_call] at hx ⊢
  obtain ⟨y, hy, hfx⟩ := Option.bind_eq_some_iff.mp hx
  exact Option.bind_eq_some_iff.mpr ⟨y, h y hy, hfx⟩

theorem matches_neg {d e : Expr} (h : M.Matches σ d e) : M.Matches σ d.neg e.neg :=
  matches_mul (.cons (.refl _) (.cons h .nil))

theorem values_perm {es fs : List Expr} (h : es.Perm fs) {xs : List K} (hfs : M.Values σ fs xs) :
    ∃ ys, M.Values σ es ys ∧ ys.Perm xs :=
  List.perm_comp_forall₂ h hfs

/-- The order of the terms does not matter. -/
theorem matches_add_of_perm {ds es : List Expr} (h : ds.Perm es) :
    M.Matches σ (.add ds) (.add es) := by
  intro x hx
  obtain ⟨xs, hxs, rfl⟩ := value_add_eq_some.mp hx
  obtain ⟨ys, hys, hperm⟩ := values_perm h hxs
  exact value_add_eq_some.mpr ⟨ys, hys, hperm.sum_eq⟩

/-- The order of the factors does not matter. -/
theorem matches_mul_of_perm {ds es : List Expr} (h : ds.Perm es) :
    M.Matches σ (.mul ds) (.mul es) := by
  intro x hx
  obtain ⟨xs, hxs, rfl⟩ := value_mul_eq_some.mp hx
  obtain ⟨ys, hys, hperm⟩ := values_perm h hxs
  exact value_mul_eq_some.mpr ⟨ys, hys, hperm.prod_eq⟩

theorem matches_mul_append {ds es : List Expr} {a b : Expr} (ha : M.Matches σ a (.mul ds))
    (hb : M.Matches σ b (.mul es)) : M.Matches σ (.mul [a, b]) (.mul (ds ++ es)) := by
  intro x hx
  obtain ⟨y, z, hy, hz, rfl⟩ := value_mul_append_eq_some.mp hx
  rw [value_mul_cons_eq_some, value_mul_singleton]
  exact ⟨y, z, ha y hy, hb z hz, rfl⟩

theorem matches_mul_cons {e : Expr} {ds es : List Expr} (h : M.Matches σ (.mul ds) (.mul es)) :
    M.Matches σ (.mul (e :: ds)) (.mul (e :: es)) := by
  intro x hx
  obtain ⟨y, z, hy, hz, rfl⟩ := value_mul_cons_eq_some.mp hx
  exact value_mul_cons_eq_some.mpr ⟨y, z, hy, h z hz, rfl⟩

/-- A factor may be written as factors of its own. -/
theorem matches_mul_flatten {as ds : List Expr} {a : Expr} (ha : M.Matches σ (.mul as) a) :
    M.Matches σ (.mul (as ++ ds)) (.mul (a :: ds)) := by
  intro x hx
  obtain ⟨y, z, hy, hz, rfl⟩ := value_mul_cons_eq_some.mp hx
  exact value_mul_append_eq_some.mpr ⟨y, z, ha y hy, hz, rfl⟩

/-- A minus sign may go to the first factor. -/
theorem matches_neg_mul (a : Expr) (as : List Expr) :
    M.Matches σ (.mul (a.neg :: as)) (.neg (.mul (a :: as))) := by
  intro x hx
  obtain ⟨_, hproduct, rfl⟩ := value_neg_eq_some.mp hx
  obtain ⟨y, z, hy, hz, rfl⟩ := value_mul_cons_eq_some.mp hproduct
  exact value_mul_cons_eq_some.mpr ⟨-y, z, value_neg_eq_some.mpr ⟨y, hy, rfl⟩, hz, by ring⟩

theorem matches_neg_constant (c : Rat) :
    M.Matches σ (.neg (.constant c)) (.constant (-c)) := by
  intro x hx
  cases hx
  exact value_neg_eq_some.mpr ⟨c, value_constant c, Rat.cast_neg c⟩

theorem matches_singleton (e : Expr) : M.Matches σ (.mul [e]) e := by
  intro x hx
  rwa [value_mul_singleton]

theorem matches_of_singleton (e : Expr) : M.Matches σ e (.mul [e]) := by
  intro x hx
  rwa [value_mul_singleton] at hx

/-! ## Divisors -/

theorem Divides.inverse {c d e : Expr} (h : M.Divides σ d e) (hc : M.Matches σ c d) :
    M.Matches σ c.inverse e := by
  intro x hx
  obtain ⟨y, hy, hne, rfl⟩ := h x hx
  refine value_pow_eq_some.mpr ⟨y, -1, hc y hy, ?_, M.pow_neg_one y hne⟩
  simp [Expr.integer]

theorem divides_constant {c : Rat} (hc : c ≠ 0) :
    M.Divides σ (.constant c) (.constant (1 / c)) := by
  intro x hx
  cases hx
  exact ⟨c, value_constant c, by exact_mod_cast hc, by push_cast; rfl⟩

theorem divides_mul {ds es : List Expr} (h : List.Forall₂ (M.Divides σ) ds es) :
    M.Divides σ (.mul ds) (.mul es) := by
  intro x hx
  obtain ⟨xs, hxs, rfl⟩ := value_mul_eq_some.mp hx
  suffices hvalues : ∃ ys, M.Values σ ds ys ∧ ys.prod ≠ 0 ∧ xs.prod = 1 / ys.prod by
    obtain ⟨ys, hys, hne, heq⟩ := hvalues
    exact ⟨_, value_mul_eq_some.mpr ⟨ys, hys, rfl⟩, hne, heq⟩
  clear hx
  induction h generalizing xs with
  | nil =>
    cases hxs
    exact ⟨[], .nil, by simp, by simp⟩
  | cons hfirst _ ih =>
    cases hxs with
    | cons hx hxs =>
      obtain ⟨y, hy, hne, rfl⟩ := hfirst _ hx
      obtain ⟨ys, hys, hne', heq⟩ := ih _ hxs
      refine ⟨y :: ys, .cons hy hys, by simp [hne, hne'], ?_⟩
      rw [List.prod_cons, List.prod_cons, heq, one_div_mul_one_div]

/-- What a power with a negative exponent divides by. -/
theorem divides_pow {b : Expr} {q : Rat} (hq : 0 < q) :
    M.Divides σ (.pow b (.constant q)) (.pow b (.constant (-q))) := by
  intro x hx
  obtain ⟨y, z, hy, hz, hpow⟩ := value_pow_eq_some.mp hx
  cases hz
  rw [Rat.cast_neg] at hpow
  obtain ⟨w, hw, hne, heq⟩ := M.pow_neg y q x hq hpow
  exact ⟨w, value_pow_eq_some.mpr ⟨y, q, hy, value_constant q, hw⟩, hne, heq⟩

theorem matches_pow_one (b : Expr) : M.Matches σ b (.pow b (.constant 1)) := by
  intro x hx
  obtain ⟨y, z, hy, hz, hpow⟩ := value_pow_eq_some.mp hx
  cases hz
  rw [Rat.cast_one, M.pow_one] at hpow
  rw [hy, hpow]

theorem Divides.of_eq_one {b e : Expr} (h : M.Divides σ (.pow b (.constant 1)) e) :
    M.Divides σ b e := by
  intro x hx
  obtain ⟨y, hy, hne, heq⟩ := h x hx
  exact ⟨y, matches_pow_one b y hy, hne, heq⟩

/-! ## Formulas -/

open Formula

variable (M σ)

/-- The formula states an expression that matches `e`. -/
def States (f : Formula) (e : Expr) : Prop :=
  ∃ d, f.lower = .ok d ∧ M.Matches σ d e

variable {M σ} {f g : Formula} {d e : Expr}

theorem States.of_matches (h : M.States σ f e) (hd : M.Matches σ e d) : M.States σ f d := by
  obtain ⟨c, hlower, hc⟩ := h
  exact ⟨c, hlower, hc.trans hd⟩

theorem states_number (q : Rat) : M.States σ (.number q) (.constant q) :=
  ⟨_, by rw [lower], .refl _⟩

theorem states_name {text : String} (h : text ≠ imaginaryUnitName) :
    M.States σ (.name text) (.symbol text) :=
  ⟨_, by rw [lower, if_neg (by simpa using h)], .refl _⟩

theorem states_imaginaryUnit : M.States σ (.name imaginaryUnitName) .imaginaryUnit :=
  ⟨_, by rw [lower, if_pos (by simp)], .refl _⟩

/-- A minus sign in front of a number belongs to it, in front of anything else it multiplies. -/
theorem States.negative (h : M.States σ f e) : M.States σ (.negative f) e.neg := by
  obtain ⟨d, hlower, hd⟩ := h
  cases f with
  | number q =>
    rw [lower] at hlower
    cases hlower
    refine ⟨_, rfl, fun x hx => ?_⟩
    obtain ⟨y, hy, rfl⟩ := value_neg_eq_some.mp hx
    have hq : (q : K) = y := Option.some.inj (hd y hy)
    rw [value_constant, Rat.cast_neg, hq]
  | _ => exact ⟨d.neg, lower_negative (by simp) hlower, matches_neg hd⟩

theorem States.subtracted (h : M.States σ f e) : M.States σ (.subtracted f) e.neg := by
  obtain ⟨d, hlower, hd⟩ := h
  exact ⟨d.neg, by rw [lower, hlower]; rfl, matches_neg hd⟩

theorem States.divisor (h : M.States σ f d) (hd : M.Divides σ d e) :
    M.States σ (.divisor f) e := by
  obtain ⟨c, hlower, hc⟩ := h
  exact ⟨c.inverse, by rw [lower, hlower]; rfl, hd.inverse hc⟩

theorem States.power (h : M.States σ f d) (h' : M.States σ g e) :
    M.States σ (.power f g) (.pow d e) := by
  obtain ⟨a, hlower, ha⟩ := h
  obtain ⟨b, hlower', hb⟩ := h'
  exact ⟨.pow a b, by rw [lower, hlower, hlower']; rfl, matches_pow ha hb⟩

theorem States.squareRoot (h : M.States σ f e) (offset : Nat) :
    M.States σ (.call offset squareRootName [f]) (.pow e (.constant Layout.half)) := by
  obtain ⟨d, hlower, hd⟩ := h
  exact ⟨_, lower_squareRoot offset hlower, matches_pow hd (.refl _)⟩

theorem States.call (h : M.States σ f e) (offset : Nat) {function : String} {head : Func}
    (hroot : function ≠ squareRootName) (hhead : Func.ofName? function = some head) :
    M.States σ (.call offset function [f]) (.call head e) := by
  obtain ⟨d, hlower, hd⟩ := h
  exact ⟨_, lower_call offset hroot hhead hlower, matches_call hd⟩

theorem states_product {fs : List Formula} {es : List Expr}
    (h : List.Forall₂ (M.States σ) (f :: g :: fs) es) :
    M.States σ (.product (f :: g :: fs)) (.mul es) := by
  obtain ⟨ds, hlower, hds⟩ := exists_lowerList h
  refine ⟨.product ds, by rw [lower, hlower]; rfl, ?_⟩
  match ds, es, hds, h with
  | _ :: _ :: _, _, hds, _ => exact matches_mul hds
  | [], _, .nil, h => cases h
  | [_], _, .cons _ .nil, h => cases h with | cons _ h => cases h

theorem states_sum {fs : List Formula} {es : List Expr}
    (h : List.Forall₂ (M.States σ) (f :: g :: fs) es) :
    M.States σ (.sum (f :: g :: fs)) (.add es) := by
  obtain ⟨ds, hlower, hds⟩ := exists_lowerList h
  refine ⟨.sum ds, by rw [lower, hlower]; rfl, ?_⟩
  match ds, es, hds, h with
  | _ :: _ :: _, _, hds, _ => exact matches_add hds
  | [], _, .nil, h => cases h
  | [_], _, .cons _ .nil, h => cases h with | cons _ h => cases h

end Semantics

end ClosedForm
