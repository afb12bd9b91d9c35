import ClosedForm.Proofs.Failures
import ClosedForm.Proofs.Idempotence

/-!
# Powers of sums that stand

Expansion multiplies out a natural power of a sum within the limit, and leaves every other power of a sum
standing. `standing` counts the powers among the factors of an expression that stand, separately for each
sum that they can come to be powers of (`standsFor`). Two powers of one sum that are multiplied can merge to a
power that could be multiplied out, after expansion had its turn, so an expression is `Apart` if this cannot
happen: no product has two of them, and none occurs in the base of a further power.

`Apart bounds true F` asks besides that nothing is left to multiply out. A sum of terms for which this
holds is `Flat`, and a term is a `FlatTerm`.
-/

namespace ClosedForm

open ClosedForm.Expr Canonical

namespace Expr

/-! ## Sums among the factors -/

/-- Whether a node is free of sums, where its children are. -/
def sumFreeStep (e : Expr) (children : List Bool) : Bool :=
  match e, children with
  | .add _, _ => false
  | .mul _, factors => factors.all id
  | .pow _ _, base :: _ => base
  | _, _ => true

/-- No sum is a factor, or a factor in the base of a power. Exponents and arguments do not count. -/
def sumFree : Expr → Bool :=
  recurse sumFreeStep

theorem sumFree_eq (e : Expr) : e.sumFree = sumFreeStep e (e.children.map sumFree) :=
  recurse_eq _ _

@[simp] theorem sumFree_constant (c : Rat) : (constant c).sumFree = true := rfl

@[simp] theorem sumFree_symbol (name : String) : (symbol name).sumFree = true := rfl

@[simp] theorem sumFree_add (ts : List Expr) : (add ts).sumFree = false := rfl

@[simp] theorem sumFree_function (f : Func) (arguments : List Expr) :
    (function f arguments).sumFree = true := rfl

@[simp] theorem sumFree_mul (fs : List Expr) : (mul fs).sumFree = true ↔ ∀ f ∈ fs, f.sumFree = true := by
  rw [sumFree_eq]
  simp [sumFreeStep, children]

@[simp] theorem sumFree_pow (base exponent : Expr) : (pow base exponent).sumFree = base.sumFree :=
  sumFree_eq _

theorem isAdd_of_sumFree {e : Expr} (h : e.sumFree = true) : e.isAdd = false := by
  cases e <;> first | rfl | cases h

/-! ## Powers that stand -/

/-- A sum with this exponent is multiplied out. -/
def multipliesOut (bounds : Bounds) : Expr → Bool
  | .constant q => Rational.isInteger q && decide (0 ≤ q) &&
      decide (q.num.natAbs ≤ bounds.maxExpandExponent)
  | _ => false

/-- What the power is a power of once it has been expanded, if both its base and that are normal. -/
def expandedBase? (bounds : Bounds) (base exponent : Expr) : Option Expr :=
  if pass bounds .empty base = .ok base then
    match Expand.expandNodes bounds (.pow base exponent) with
    | .ok (.pow b _) => if pass bounds .empty b = .ok b then some b else none
    | _ => none
  else none

/-- The expressions that a standing power can come to be a power of. -/
def standsFor (bounds : Bounds) (base exponent : Expr) : Expr → Nat :=
  match expandedBase? bounds base exponent with
  | some b => Pi.single b 1
  | none => 1

/-- The numbers for a node from those of its children. -/
def standingStep (bounds : Bounds) (e : Expr) (children : List (Expr → Nat)) : Expr → Nat :=
  match e, children with
  | .add _, terms => terms.foldr (· ⊔ ·) 0
  | .mul _, factors => factors.sum
  | .pow base exponent, _ =>
    if base.sumFree || multipliesOut bounds exponent then 0 else standsFor bounds base exponent
  | _, _ => 0

/-- For each expression the number of powers among the factors that are left standing and can come to be
powers of it; for a sum, the number in the term which has most of them. -/
def standing (bounds : Bounds) : Expr → Expr → Nat :=
  recurse (standingStep bounds)

variable {bounds : Bounds}

theorem standing_eq (e : Expr) :
    e.standing bounds = standingStep bounds e (e.children.map (standing bounds)) :=
  recurse_eq _ _

@[simp] theorem standing_constant (c : Rat) : (constant c).standing bounds = 0 := rfl

@[simp] theorem standing_symbol (name : String) : (symbol name).standing bounds = 0 := rfl

@[simp] theorem standing_function (f : Func) (arguments : List Expr) :
    (function f arguments).standing bounds = 0 := rfl

theorem foldr_sup_le {ks : List (Expr → Nat)} {k : Expr → Nat} :
    ks.foldr (· ⊔ ·) 0 ≤ k ↔ ∀ j ∈ ks, j ≤ k := by
  induction ks with
  | nil => simp
  | cons j ks ih => simp [ih]

theorem standing_add_le_iff {ts : List Expr} {k : Expr → Nat} :
    (add ts).standing bounds ≤ k ↔ ∀ t ∈ ts, t.standing bounds ≤ k := by
  rw [standing_eq]
  show (ts.map (standing bounds)).foldr (· ⊔ ·) 0 ≤ k ↔ _
  rw [foldr_sup_le]
  simp

@[simp] theorem standing_mul (fs : List Expr) :
    (mul fs).standing bounds = (fs.map (standing bounds)).sum :=
  standing_eq _

theorem standing_pow (base exponent : Expr) : (pow base exponent).standing bounds =
    if base.sumFree || multipliesOut bounds exponent then 0 else standsFor bounds base exponent :=
  standing_eq _

theorem expandedBase?_eq_some {base exponent b : Expr} (h : expandedBase? bounds base exponent = some b) :
    ∃ y, Expand.expandNodes bounds (.pow base exponent) = .ok (.pow b y) ∧
      pass bounds .empty b = .ok b := by
  unfold expandedBase? at h
  split at h
  · split at h
    · next c y hnodes =>
      split at h
      · next hpass =>
        cases h
        exact ⟨y, hnodes, hpass⟩
      · cases h
    · cases h
  · cases h

theorem standsFor_le (base exponent : Expr) : standsFor bounds base exponent ≤ 1 := by
  unfold standsFor
  split
  · next b _ =>
    intro c
    by_cases hc : c = b
    · rw [hc, Pi.single_eq_same]
      exact le_rfl
    · rw [Pi.single_eq_of_ne hc]
      exact Nat.zero_le 1
  · exact le_rfl

theorem standsFor_ne_zero (base exponent : Expr) : standsFor bounds base exponent ≠ 0 := by
  unfold standsFor
  split
  · exact Pi.single_ne_zero_iff.mpr one_ne_zero
  · exact one_ne_zero

theorem standing_pow_le (base exponent : Expr) : (pow base exponent).standing bounds ≤ 1 := by
  rw [standing_pow]
  split
  · exact zero_le_one
  · exact standsFor_le base exponent

theorem standing_product (fs : List Expr) :
    (product fs).standing bounds = (fs.map (standing bounds)).sum := by
  match fs with
  | [] => rfl
  | [f] => simp [product]
  | _ :: _ :: _ => exact standing_mul _

theorem standing_le_of_mem {f : Expr} {fs : List Expr} (h : f ∈ fs) :
    f.standing bounds ≤ (fs.map (standing bounds)).sum :=
  List.single_le_sum (fun _ _ => zero_le) _ (List.mem_map_of_mem h)

/-- Opening products keeps the numbers. -/
theorem standings_factorsList (es : List Expr) :
    ((factorsList es).map (standing bounds)).sum = (es.map (standing bounds)).sum :=
  sum_map_factorsList standing_mul es

theorem standing_of_sumFree {e : Expr} (h : e.sumFree = true) : e.standing bounds = 0 := by
  induction e using Expr.induction with
  | node e ih =>
    cases e with
    | constant | symbol | function => rfl
    | add => cases h
    | mul fs =>
      rw [standing_mul]
      refine List.sum_eq_zero fun n hn => ?_
      obtain ⟨f, hf, rfl⟩ := List.mem_map.mp hn
      exact ih f hf ((sumFree_mul fs).mp h f hf)
    | pow base exponent =>
      rw [sumFree_pow] at h
      rw [standing_pow, h]
      rfl

end Expr

/-! ## Expressions in which powers of sums are kept apart -/

/-- A power of a sum with this exponent is left as it is. -/
def Expr.Stays (bounds : Bounds) (exponent : Expr) : Prop :=
  ∀ q, exponent = .constant q → Rational.isInteger q = true →
    q.num.natAbs ≤ bounds.maxExpandExponent → q = -1

/-- The function that undoes another one. -/
def Func.inverse? : Func → Option Func
  | .exp => some .ln
  | .ln => some .exp
  | _ => none

/-- The functions other than the one that undoes `f`. -/
def Func.Without (F : Func → Prop) (f g : Func) : Prop :=
  F g ∧ f.inverse? ≠ some g

/-- The functions are among `F`, none occurs under the one that undoes it, and

* among the factors of a product no two powers stand that can come to be powers of the same sum,
* no power stands among the factors of the base of a power, and
* the exponent of a power of a sum is normal, with nothing to be multiplied out in it.

With `out` no product and no power is left to be multiplied out, and no sum to be opened. -/
inductive Expr.Apart (bounds : Bounds) : Bool → (Func → Prop) → Expr → Prop
  | constant {out : Bool} {F : Func → Prop} (c : Rat) : Apart bounds out F (.constant c)
  | symbol {out : Bool} {F : Func → Prop} (name : String) : Apart bounds out F (.symbol name)
  | add {out : Bool} {F : Func → Prop} {ts : List Expr} (h : ∀ t ∈ ts, Apart bounds out F t)
      (hout : out = true → ∀ t ∈ ts, t.isAdd = false) : Apart bounds out F (.add ts)
  | mul {out : Bool} {F : Func → Prop} {fs : List Expr} (h : ∀ f ∈ fs, Apart bounds out F f)
      (hone : (fs.map (standing bounds)).sum ≤ 1)
      (hout : out = true → ∀ f ∈ fs, f.isAdd = false) : Apart bounds out F (.mul fs)
  | pow {out : Bool} {F : Func → Prop} {base exponent : Expr} (hbase : Apart bounds out F base)
      (hfree : base.sumFree = true) (hexponent : Apart bounds out F exponent) :
    Apart bounds out F (.pow base exponent)
  | sumPow {out : Bool} {F : Func → Prop} {base exponent : Expr} (hbase : Apart bounds out F base)
      (hnone : base.standing bounds = 0) (hnormal : Normal bounds exponent)
      (hexponent : Apart bounds true F exponent)
      (hout : out = true → base.isAdd = true → exponent.Stays bounds) :
    Apart bounds out F (.pow base exponent)
  | function {out : Bool} {F : Func → Prop} {f : Func} {arguments : List Expr} (hf : F f)
      (h : ∀ a ∈ arguments, Apart bounds out (f.Without F) a) :
    Apart bounds out F (.function f arguments)

variable {bounds : Bounds} {out : Bool} {F : Func → Prop} {k : Expr → Nat}

namespace Expr

theorem Stays.multipliesOut {exponent : Expr} (h : exponent.Stays bounds) :
    exponent.multipliesOut bounds = false := by
  by_contra hopens
  cases exponent with
  | constant q =>
    simp only [Expr.multipliesOut, Bool.not_eq_false, Bool.and_eq_true, decide_eq_true_eq] at hopens
    obtain ⟨⟨hint, hpos⟩, hle⟩ := hopens
    rw [h q rfl hint hle] at hpos
    norm_num at hpos
  | _ => exact hopens rfl

namespace Apart

theorem of_mem_add {ts : List Expr} (h : Apart bounds out F (.add ts)) :
    ∀ t ∈ ts, Apart bounds out F t := by
  cases h with
  | add h => exact h

theorem isAdd_of_mem_add {ts : List Expr} (h : Apart bounds true F (.add ts)) :
    ∀ t ∈ ts, t.isAdd = false := by
  cases h with
  | add _ hout => exact hout rfl

theorem of_mem_mul {fs : List Expr} (h : Apart bounds out F (.mul fs)) :
    ∀ f ∈ fs, Apart bounds out F f := by
  cases h with
  | mul h => exact h

theorem isAdd_of_mem_mul {fs : List Expr} (h : Apart bounds true F (.mul fs)) :
    ∀ f ∈ fs, f.isAdd = false := by
  cases h with
  | mul _ _ hout => exact hout rfl

theorem of_function {f : Func} {arguments : List Expr} (h : Apart bounds out F (.function f arguments)) :
    F f ∧ ∀ a ∈ arguments, Apart bounds out (f.Without F) a := by
  cases h with
  | function hf harguments => exact ⟨hf, harguments⟩

/-- No two of them come to be powers of the same sum. -/
theorem standing_le_one {e : Expr} (h : Apart bounds out F e) : e.standing bounds ≤ 1 := by
  induction h with
  | constant | symbol | function => exact zero_le_one
  | add _ _ ih => exact standing_add_le_iff.mpr ih
  | mul _ hone =>
    rw [standing_mul]
    exact hone
  | pow | sumPow => exact standing_pow_le _ _

/-- Where nothing is left to multiply out, a term without standing powers is free of sums. -/
theorem sumFree {e : Expr} (h : Apart bounds true F e) (hadd : e.isAdd = false)
    (hzero : e.standing bounds = 0) : e.sumFree = true := by
  obtain ⟨out, hout⟩ : ∃ out, out = true := ⟨true, rfl⟩
  rw [← hout] at h
  induction h with
  | constant | symbol | function => rfl
  | add => cases hadd
  | mul _ _ hterms ih =>
    rw [standing_mul] at hzero
    rw [sumFree_mul]
    exact fun f hf => ih f hf (hterms hout f hf)
      (nonpos_iff_eq_zero.mp (hzero ▸ standing_le_of_mem hf)) hout
  | pow _ hfree => rwa [sumFree_pow]
  | @sumPow _ _ base exponent _ hnone _ _ hstays ih =>
    rw [sumFree_pow]
    by_cases hbase : base.isAdd = true
    · have hopens := (hstays hout hbase).multipliesOut
      rw [standing_pow, hopens, Bool.or_false] at hzero
      by_contra hfree
      rw [if_neg hfree] at hzero
      exact standsFor_ne_zero base exponent hzero
    · exact ih (by simpa using hbase) hnone hout

/-- The base of a power is free of sums, or it is a sum and the exponent stays. -/
theorem pow_cases {base exponent : Expr} (h : Apart bounds true F (.pow base exponent)) :
    (Apart bounds true F base ∧ base.sumFree = true ∧ Apart bounds true F exponent) ∨
      (∃ ts, base = .add ts ∧ Apart bounds true F (.add ts) ∧ (Expr.add ts).standing bounds = 0 ∧
        Normal bounds exponent ∧ Apart bounds true F exponent ∧ exponent.Stays bounds) := by
  cases h with
  | pow hbase hfree hexponent => exact .inl ⟨hbase, hfree, hexponent⟩
  | sumPow hbase hnone hnormal hexponent hout =>
    by_cases hadd : base.isAdd = true
    · cases base with
      | add ts => exact .inr ⟨ts, rfl, hbase, hnone, hnormal, hexponent, hout rfl hadd⟩
      | _ => cases hadd
    · exact .inl ⟨hbase, hbase.sumFree (by simpa using hadd) hnone, hexponent⟩

end Apart

end Expr

/-! ## Flat sums and terms -/

/-- Nothing is left to multiply out, and in every term at most `k b` powers stand for the sum `b`. -/
structure Flat (bounds : Bounds) (F : Func → Prop) (k : Expr → Nat) (e : Expr) : Prop where
  apart : e.Apart bounds true F
  standing_le : e.standing bounds ≤ k

/-- The same for an expression that is no sum. -/
structure FlatTerm (bounds : Bounds) (F : Func → Prop) (k : Expr → Nat) (e : Expr) : Prop
    extends Flat bounds F k e where
  not_add : e.isAdd = false

theorem Flat.mono {j : Expr → Nat} {e : Expr} (h : Flat bounds F j e) (hle : j ≤ k) : Flat bounds F k e :=
  ⟨h.apart, h.standing_le.trans hle⟩

theorem FlatTerm.mono {j : Expr → Nat} {e : Expr} (h : FlatTerm bounds F j e) (hle : j ≤ k) :
    FlatTerm bounds F k e :=
  ⟨h.toFlat.mono hle, h.not_add⟩

/-- A flat term without standing powers is free of sums. -/
theorem FlatTerm.sumFree {e : Expr} (h : FlatTerm bounds F 0 e) : e.sumFree = true :=
  h.apart.sumFree h.not_add (nonpos_iff_eq_zero.mp h.standing_le)

namespace Expr.Apart

theorem flat {e : Expr} (h : e.Apart bounds true F) : Flat bounds F 1 e :=
  ⟨h, h.standing_le_one⟩

theorem flatTerm {e : Expr} (h : e.Apart bounds true F) (hfree : e.sumFree = true) :
    FlatTerm bounds F k e :=
  ⟨⟨h, by rw [standing_of_sumFree hfree]; exact zero_le⟩, isAdd_of_sumFree hfree⟩

end Expr.Apart

theorem flatTerm_constant (c : Rat) : FlatTerm bounds F k (.constant c) :=
  (Apart.constant c).flatTerm rfl

/-- Flat terms can be multiplied if no two powers of a sum stand in them. -/
theorem flatTerm_product (hk : k ≤ 1) {fs : List Expr} (h : ∀ f ∈ fs, FlatTerm bounds F 1 f)
    (hsum : (fs.map (standing bounds)).sum ≤ k) : FlatTerm bounds F k (Expr.product fs) := by
  match fs with
  | [] => exact flatTerm_constant 1
  | [f] =>
    rw [← standing_product] at hsum
    exact ⟨⟨(h f (by simp)).apart, hsum⟩, (h f (by simp)).not_add⟩
  | f :: g :: fs =>
    rw [← standing_product] at hsum
    exact ⟨⟨.mul (fun e he => (h e he).apart) (standing_product (f :: g :: fs) ▸ hsum.trans hk)
      fun _ e he => (h e he).not_add, hsum⟩, rfl⟩

/-- The terms of a flat sum. -/
theorem Flat.of_add {ts : List Expr} (h : Flat bounds F k (.add ts)) :
    ∀ t ∈ ts, FlatTerm bounds F k t :=
  fun t ht => ⟨⟨h.apart.of_mem_add t ht, standing_add_le_iff.mp h.standing_le t ht⟩,
    h.apart.isAdd_of_mem_add t ht⟩

theorem Flat.of_mem_terms {e t : Expr} (h : Flat bounds F k e) (ht : t ∈ e.terms) :
    FlatTerm bounds F k t := by
  cases hadd : e.isAdd with
  | true =>
    cases e with
    | add ts => exact h.of_add t ht
    | _ => cases hadd
  | false =>
    rw [terms_of_not_isAdd hadd, List.mem_singleton] at ht
    rw [ht]
    exact ⟨h, hadd⟩

/-- A sum of flat terms. -/
theorem flat_sum {ts : List Expr} (h : ∀ t ∈ ts, FlatTerm bounds F k t) :
    Flat bounds F k (Expr.sum ts) := by
  match ts with
  | [] => exact (flatTerm_constant 0).toFlat
  | [t] => exact (h t (by simp)).toFlat
  | _ :: _ :: _ => exact ⟨.add (fun t ht => (h t ht).apart) fun _ t ht => (h t ht).not_add,
      standing_add_le_iff.mpr fun t ht => (h t ht).standing_le⟩

/-- The factors of a product of flat terms. -/
theorem Flat.of_mul {fs : List Expr} (h : Flat bounds F k (.mul fs)) :
    (∀ f ∈ fs, FlatTerm bounds F 1 f) ∧ (fs.map (standing bounds)).sum ≤ k := by
  refine ⟨fun f hf => ⟨(h.apart.of_mem_mul f hf).flat, h.apart.isAdd_of_mem_mul f hf⟩, ?_⟩
  have hle := h.standing_le
  rwa [standing_mul] at hle

/-- The opened factors of flat terms are flat terms. -/
theorem FlatTerm.of_mem_factors {e f : Expr} (h : FlatTerm bounds F 1 e) (hf : f ∈ e.factors) :
    FlatTerm bounds F 1 f :=
  holds_of_mem_factors (fun _ hmul => hmul.toFlat.of_mul.1) h hf

end ClosedForm
