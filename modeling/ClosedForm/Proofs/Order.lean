import ClosedForm.Proofs.Factors
import Mathlib.Algebra.Order.Ring.Rat
import Mathlib.Data.List.Sort

/-!
# The order of expressions is a total order

Two expressions are compared by their heads, and by their children where the heads agree
(`compare_eq`). From this form follow the laws of a comparison (`Expr.compare` is a `TransCmp`
and a `LawfulEqCmp`), so that sorting gives the one ascending rearrangement of a list
(`sort_eq_of_perm`). A constant stands before everything that is no constant.
-/

namespace ClosedForm

open Std (TransCmp OrientedCmp LawfulEqCmp ReflCmp)

theorem Rational.isLE_compare {p q : Rat} : (Rational.compare p q).isLE ↔ p ≤ q := by
  unfold Rational.compare
  rcases lt_trichotomy p q with h | h | h
  · simp [h, h.le]
  · simp [h]
  · simp [h.not_gt, h.ne', h]

instance : TransCmp Rational.compare where
  eq_swap {p q} := by
    unfold Rational.compare
    rcases lt_trichotomy p q with h | h | h
    · simp [h, h.not_gt, h.ne']
    · simp [h]
    · simp [h, h.not_gt, h.ne']
  isLE_trans {p q r} hpq hqr := by
    rw [Rational.isLE_compare] at *
    exact hpq.trans hqr

instance : LawfulEqCmp Rational.compare where
  compare_self {p} := by simp [Rational.compare]
  eq_of_compare {p q} h := by
    unfold Rational.compare at h
    split_ifs at h with hlt heq
    exact heq

namespace Expr

/-! ## Heads -/

/-- The rank of a node and what it holds besides its children. -/
def head : Expr → Nat × Rat × String × Nat
  | constant value => (0, value, "", 0)
  | symbol name => (1, 0, name, 0)
  | function f _ => (2, 0, "", f.rank)
  | pow _ _ => (3, 0, "", 0)
  | mul _ => (4, 0, "", 0)
  | add _ => (5, 0, "", 0)

/-- Three-way comparison of heads, part by part. -/
def compareHead (a b : Nat × Rat × String × Nat) : Ordering :=
  (Ord.compare a.1 b.1).then <| (Rational.compare a.2.1 b.2.1).then <|
    (Ord.compare a.2.2.1 b.2.2.1).then (Ord.compare a.2.2.2 b.2.2.2)

instance : TransCmp compareHead := by
  have : TransCmp fun a b : Nat × Rat × String × Nat => Rational.compare a.2.1 b.2.1 :=
    { eq_swap := OrientedCmp.eq_swap, isLE_trans := TransCmp.isLE_trans }
  exact inferInstanceAs (TransCmp (compareLex (compareOn fun a => a.1)
    (compareLex (fun a b : Nat × Rat × String × Nat => Rational.compare a.2.1 b.2.1)
      (compareLex (compareOn fun a => a.2.2.1) (compareOn fun a => a.2.2.2)))))

instance : LawfulEqCmp compareHead where
  compare_self {a} := by simp [compareHead]
  eq_of_compare {a b} h := by
    simp only [compareHead, Ordering.then_eq_eq, LawfulEqCmp.compare_eq_iff_eq] at h
    obtain ⟨h1, h2, h3, h4⟩ := h
    exact Prod.ext h1 (Prod.ext h2 (Prod.ext h3 h4))

theorem rank_injective {f g : Func} (h : f.rank = g.rank) : f = g := by
  cases f <;> cases g <;> simp_all [Func.rank]

/-- Expressions with the same head and the same children are equal. -/
theorem ext_head {a b : Expr} (hhead : a.head = b.head) (hchildren : a.children = b.children) :
    a = b := by
  cases a <;> cases b <;> simp_all [head, children]
  exact rank_injective hhead

/-- The heads decide, and then the children. -/
theorem compare_eq (a b : Expr) :
    compare a b = (compareHead a.head b.head).then (compareList a.children b.children) := by
  have hzero : Rational.compare 0 0 = .eq := ReflCmp.compare_self
  cases a <;> cases b <;>
    simp [compare, compareHead, head, children, compareList, rank, Nat.compare_eq_ite_lt, hzero]

/-! ## Laws of the comparison -/

theorem compareList_self {xs : List Expr} (h : ∀ x ∈ xs, compare x x = .eq) :
    compareList xs xs = .eq := by
  induction xs with
  | nil => rw [compareList]
  | cons x xs ih =>
    rw [compareList, h x (by simp), ih fun y hy => h y (by simp [hy]), Ordering.eq_then]

theorem compareList_swap {xs ys : List Expr}
    (h : ∀ x ∈ xs, ∀ y, compare x y = (compare y x).swap) :
    compareList xs ys = (compareList ys xs).swap := by
  induction xs generalizing ys with
  | nil => cases ys <;> simp [compareList]
  | cons x xs ih =>
    cases ys with
    | nil => simp [compareList]
    | cons y ys =>
      rw [compareList, compareList, Ordering.swap_then, h x (by simp),
        ih fun z hz => h z (by simp [hz])]

theorem eq_of_compareList {xs ys : List Expr}
    (h : ∀ x ∈ xs, ∀ y, compare x y = .eq → x = y) (heq : compareList xs ys = .eq) :
    xs = ys := by
  induction xs generalizing ys with
  | nil => cases ys <;> simp_all [compareList]
  | cons x xs ih =>
    cases ys with
    | nil => simp [compareList] at heq
    | cons y ys =>
      rw [compareList, Ordering.then_eq_eq] at heq
      rw [h x (by simp) y heq.1, ih (fun z hz => h z (by simp [hz])) heq.2]

theorem compare_self (a : Expr) : compare a a = .eq := by
  induction a using Expr.induction with
  | node a ih =>
    have hhead : compareHead a.head a.head = .eq := ReflCmp.compare_self
    rw [compare_eq, compareList_self ih, hhead, Ordering.eq_then]

theorem compare_swap (a b : Expr) : compare a b = (compare b a).swap := by
  induction a using Expr.induction generalizing b with
  | node a ih =>
    have hhead : compareHead a.head b.head = (compareHead b.head a.head).swap :=
      OrientedCmp.eq_swap
    rw [compare_eq, compare_eq b a, Ordering.swap_then, compareList_swap ih, hhead]

theorem eq_of_compare {a b : Expr} (h : compare a b = .eq) : a = b := by
  induction a using Expr.induction generalizing b with
  | node a ih =>
    rw [compare_eq, Ordering.then_eq_eq] at h
    exact ext_head (LawfulEqCmp.eq_of_compare h.1)
      (eq_of_compareList (fun x hx y hxy => ih x hx hxy) h.2)

theorem compareList_trans {xs ys zs : List Expr}
    (h : ∀ x ∈ xs, ∀ y z, compare x y = .lt → compare y z = .lt → compare x z = .lt)
    (hxy : compareList xs ys = .lt) (hyz : compareList ys zs = .lt) :
    compareList xs zs = .lt := by
  induction xs generalizing ys zs with
  | nil => cases ys <;> cases zs <;> simp_all [compareList]
  | cons x xs ih =>
    cases ys with
    | nil => simp [compareList] at hxy
    | cons y ys =>
      cases zs with
      | nil => simp [compareList] at hyz
      | cons z zs =>
        rw [compareList, Ordering.then_eq_lt] at hxy hyz ⊢
        rcases hxy with hxy | ⟨hxy, hxys⟩
        · rcases hyz with hyz | ⟨hyz, -⟩
          · exact .inl (h x (by simp) y z hxy hyz)
          · rw [← eq_of_compare hyz]
            exact .inl hxy
        · rw [eq_of_compare hxy]
          exact hyz.imp_right fun hyz =>
            ⟨hyz.1, ih (fun w hw => h w (by simp [hw])) hxys hyz.2⟩

theorem compare_trans {a b c : Expr} (hab : compare a b = .lt) (hbc : compare b c = .lt) :
    compare a c = .lt := by
  induction a using Expr.induction generalizing b c with
  | node a ih =>
    rw [compare_eq, Ordering.then_eq_lt] at hab hbc ⊢
    rcases hab with hab | ⟨hab, habs⟩
    · rcases hbc with hbc | ⟨hbc, -⟩
      · exact .inl (TransCmp.lt_trans hab hbc)
      · rw [← LawfulEqCmp.eq_of_compare hbc]
        exact .inl hab
    · rw [LawfulEqCmp.eq_of_compare hab]
      exact hbc.imp_right fun hbc =>
        ⟨hbc.1, compareList_trans (fun x hx y z hxy hyz => ih x hx hxy hyz) habs hbc.2⟩

instance : LawfulEqCmp compare where
  compare_self {a} := Expr.compare_self a
  eq_of_compare h := eq_of_compare h

instance : TransCmp compare where
  eq_swap {a b} := compare_swap a b
  isLE_trans {a b c} hab hbc := by
    rw [Ordering.isLE_iff_eq_lt_or_eq_eq] at *
    rcases hab with hab | hab
    · rcases hbc with hbc | hbc
      · exact .inl (compare_trans hab hbc)
      · rw [← eq_of_compare hbc]
        exact .inl hab
    · rw [eq_of_compare hab]
      exact hbc

/-! ## Sorting -/

theorem le_trans {a b c : Expr} (hab : le a b) (hbc : le b c) : le a c :=
  TransCmp.isLE_trans hab hbc

theorem le_total (a b : Expr) : le a b || le b a := by
  unfold le
  rw [compare_swap b a]
  cases compare a b <;> rfl

theorem le_antisymm {a b : Expr} (hab : le a b) (hba : le b a) : a = b := by
  refine eq_of_compare ?_
  unfold le at *
  rw [compare_swap b a] at hba
  cases h : compare a b <;> simp_all

/-- Every expression may stand before the ones after it. -/
def Ascending (es : List Expr) : Prop :=
  es.Pairwise fun a b => le a b

theorem ascending_sort (es : List Expr) : Ascending (sort es) := by
  have htrans : ∀ a b c : Expr, le a b → le b c → le a c := fun _ _ _ => le_trans
  exact List.pairwise_mergeSort htrans le_total es

/-- A list has one ascending rearrangement. -/
theorem Ascending.eq_of_perm {es fs : List Expr} (hes : Ascending es) (hfs : Ascending fs)
    (h : es.Perm fs) : es = fs :=
  h.eq_of_pairwise (fun _ _ _ _ hab hba => le_antisymm hab hba) hes hfs

theorem sort_eq_of_perm {es fs : List Expr} (h : es.Perm fs) (hfs : Ascending fs) :
    sort es = fs :=
  (ascending_sort es).eq_of_perm hfs ((sort_perm es).trans h)

theorem Ascending.sort_eq {es : List Expr} (h : Ascending es) : sort es = es :=
  sort_eq_of_perm (List.Perm.refl es) h

theorem sort_congr {es fs : List Expr} (h : es.Perm fs) : sort es = sort fs :=
  sort_eq_of_perm (h.trans (sort_perm fs).symm) (ascending_sort fs)

/-! ## Constants come first -/

theorem constant_le {c : Rat} {e : Expr} (h : e.isConstant = false) : le (constant c) e := by
  cases e <;> simp_all [isConstant, constant?, le, compare, rank, Nat.compare_eq_ite_lt]

theorem not_le_constant {c : Rat} {e : Expr} (h : e.isConstant = false) :
    ¬ le e (constant c) := by
  cases e <;> simp_all [isConstant, constant?, le, compare, rank, Nat.compare_eq_ite_lt]

/-- In an ascending list with a constant the first is a constant. -/
theorem Ascending.isConstant_head {e : Expr} {es : List Expr} (h : Ascending (e :: es)) {c : Rat}
    (hc : constant c ∈ e :: es) : e.isConstant = true := by
  by_contra hnot
  rw [Bool.not_eq_true] at hnot
  rcases List.mem_cons.mp hc with rfl | hc
  · simp [isConstant, constant?] at hnot
  · exact not_le_constant hnot ((List.pairwise_cons.mp h).1 _ hc)

end Expr

end ClosedForm
