import ClosedForm.Proofs.Combinations
import ClosedForm.Proofs.Failures
import ClosedForm.Proofs.Normal.Products
import Mathlib.Algebra.BigOperators.Group.Multiset.Basic

/-!
# Sums and products do not depend on the order

Linear forms and power products list what they collect in the order of first appearance. Up to that
order they are determined by what they have for each key in `total` (`perm_of_total_eq`), and a further
term or factor adds to these totals, which does not depend on the order either. Since sums and products
are sorted in the end, they are the same for rearranged terms (`add_eq_of_perm`) and factors
(`toOption_multiply_of_perm`), unless a power fails.
-/

namespace ClosedForm

open ClosedForm.Expr

/-! ## Totals -/

section Totals

variable {α M : Type} [AddCommMonoid M] {value : α → M}

/-- What the entries for a key come to. -/
def total (value : α → M) (entries : List (Expr × α)) (key : Expr) : M :=
  (entries.map fun t => if t.1 = key then value t.2 else 0).sum

@[simp] theorem total_nil (key : Expr) : total value [] key = 0 := rfl

@[simp] theorem total_cons (t : Expr × α) (entries : List (Expr × α)) (key : Expr) :
    total value (t :: entries) key = (if t.1 = key then value t.2 else 0) + total value entries key :=
  rfl

theorem total_of_not_mem {entries : List (Expr × α)} {key : Expr}
    (h : key ∉ entries.map Prod.fst) : total value entries key = 0 := by
  induction entries with
  | nil => rfl
  | cons t entries ih =>
    simp only [List.map_cons, List.mem_cons, not_or] at h
    rw [total_cons, if_neg (Ne.symm h.1), ih h.2, zero_add]

theorem total_of_mem {entries : List (Expr × α)} (hnodup : (entries.map Prod.fst).Nodup)
    {t : Expr × α} (h : t ∈ entries) : total value entries t.1 = value t.2 := by
  induction entries with
  | nil => cases h
  | cons s entries ih =>
    rw [List.map_cons, List.nodup_cons] at hnodup
    rcases List.mem_cons.mp h with rfl | h
    · rw [total_cons, if_pos rfl, total_of_not_mem hnodup.1, add_zero]
    · have hne : s.1 ≠ t.1 := fun heq => hnodup.1 (heq ▸ List.mem_map_of_mem h)
      rw [total_cons, if_neg hne, zero_add, ih hnodup.2 h]

variable [DecidableEq M]

/-- The keys with what their entries come to, without those that come to nothing. -/
def amounts (value : α → M) (entries : List (Expr × α)) : List (Expr × M) :=
  (entries.map fun t => (t.1, value t.2)).filter fun t => t.2 ≠ 0

theorem mem_amounts {entries : List (Expr × α)} (hnodup : (entries.map Prod.fst).Nodup)
    {t : Expr × M} : t ∈ amounts value entries ↔ t.2 ≠ 0 ∧ total value entries t.1 = t.2 := by
  simp only [amounts, List.mem_filter, List.mem_map, decide_eq_true_eq]
  constructor
  · rintro ⟨⟨s, hs, rfl⟩, hne⟩
    exact ⟨hne, total_of_mem hnodup hs⟩
  · rintro ⟨hne, htotal⟩
    have hmem : t.1 ∈ entries.map Prod.fst := by
      by_contra hnot
      exact hne (htotal.symm.trans (total_of_not_mem hnot))
    obtain ⟨s, hs, hkey⟩ := List.mem_map.mp hmem
    have hvalue : value s.2 = t.2 := by
      have hown : total value entries s.1 = value s.2 := total_of_mem hnodup hs
      rw [← hown, hkey, htotal]
    exact ⟨⟨s, hs, Prod.ext hkey hvalue⟩, hne⟩

theorem nodup_amounts {entries : List (Expr × α)} (hnodup : (entries.map Prod.fst).Nodup) :
    (amounts value entries).Nodup := by
  refine List.Nodup.filter _ (List.Nodup.of_map Prod.fst ?_)
  rwa [List.map_map]

/-- Entries with distinct keys are determined by their totals, up to their order. -/
theorem perm_of_total_eq {entries others : List (Expr × α)}
    (hnodup : (entries.map Prod.fst).Nodup) (hnodup' : (others.map Prod.fst).Nodup)
    (h : ∀ key, total value entries key = total value others key) :
    (amounts value entries).Perm (amounts value others) := by
  rw [List.perm_ext_iff_of_nodup (nodup_amounts hnodup) (nodup_amounts hnodup')]
  intro t
  rw [mem_amounts hnodup, mem_amounts hnodup', h]

end Totals

/-! ## Sums -/

namespace LinearForm

/-- The constant of a form, and what it has for each expression. -/
def content (form : LinearForm) : Rat × (Expr → Rat) :=
  (form.constant, total id form.terms)

/-- No expression has two coefficients. -/
def Distinct (form : LinearForm) : Prop :=
  (form.terms.map Prod.fst).Nodup

theorem distinct_zero : zero.Distinct := List.nodup_nil

theorem Distinct.addTerm {form : LinearForm} (h : form.Distinct) (e : Expr) (c : Rat) :
    Distinct { form with terms := LinearForm.addTerm e c form.terms } := by
  show ((LinearForm.addTerm e c form.terms).map Prod.fst).Nodup
  rcases keys_addTerm e c form.terms with heq | ⟨hnot, heq⟩
  · rw [heq]
    exact h
  · rw [heq]
    exact List.Nodup.append h (List.nodup_singleton _) (by simpa using hnot)

/-- Collecting keeps the expressions of a form distinct. -/
theorem Distinct.gatherList {form : LinearForm} (h : form.Distinct) (scale : Rat) (es : List Expr) :
    (LinearForm.gatherList scale form es).Distinct :=
  Gathers.gatherList (P := fun _ => True)
    { of_add := fun _ _ _ => trivial
      of_scaled := fun _ => trivial
      constant := fun _ hform => hform
      term := fun c _ _ _ hform => hform.addTerm _ c } scale h es fun _ _ => trivial

/-- One of an expression and none of the others. -/
def single (e : Expr) : Rat × (Expr → Rat) :=
  (0, Pi.single e 1)

theorem content_eq_combination (form : LinearForm) :
    form.content = form.combination (1, 0) single := by
  have hterms (terms : List (Expr × Rat)) :
      (terms.map fun t => t.2 • single t.1).sum = ((0, total id terms) : Rat × (Expr → Rat)) := by
    induction terms with
    | nil => rfl
    | cons t terms ih =>
      rw [List.map_cons, List.sum_cons, ih]
      refine Prod.ext (by simp [single]) (funext fun key => ?_)
      simp [single, Pi.single_apply, eq_comm]
  rw [combination, hterms]
  refine Prod.ext ?_ (funext fun key => ?_) <;> simp [content]

/-- What some expressions contain together is in the form that collects them. -/
theorem content_gatherList (scale : Rat) (es : List Expr) : (gatherList scale zero es).content =
    scale • (es.map (Expr.combination (1, 0) single)).sum := by
  rw [content_eq_combination, combination_gatherList, combination_zero, zero_add]

theorem parts_eq (form : LinearForm) :
    form.parts = (if form.constant = 0 then [] else [Expr.constant form.constant]) ++
      (amounts id form.terms).map fun t => Expr.scale t.2 t.1 := by
  unfold parts amounts
  congr 1
  induction form.terms with
  | nil => rfl
  | cons t terms ih => by_cases h : t.2 = 0 <;> simp_all

/-- Forms with the same content stand for the same sum. -/
theorem toExpr_congr {form other : LinearForm} (h : form.Distinct) (h' : other.Distinct)
    (hcontent : form.content = other.content) : form.toExpr = other.toExpr := by
  obtain ⟨hconstant, htotal⟩ := Prod.mk.inj hcontent
  have hperm := perm_of_total_eq h h' (congrFun htotal)
  rw [toExpr_eq, toExpr_eq, parts_eq, parts_eq, hconstant, sort_congr ((hperm.map _).append_left _)]

end LinearForm

/-- Expressions that contain the same together have the same sum. -/
theorem Canonical.add_congr {ss ts : List Expr}
    (h : (ss.map (Expr.combination (1, 0) LinearForm.single)).sum =
      (ts.map (Expr.combination (1, 0) LinearForm.single)).sum) :
    Canonical.add ss = Canonical.add ts := by
  refine LinearForm.toExpr_congr (LinearForm.distinct_zero.gatherList 1 ss)
    (LinearForm.distinct_zero.gatherList 1 ts) ?_
  rw [LinearForm.content_gatherList, LinearForm.content_gatherList, h]

/-- The order of the terms makes no difference to a sum. -/
theorem Canonical.add_eq_of_perm {ss ts : List Expr} (h : ss.Perm ts) :
    Canonical.add ss = Canonical.add ts :=
  add_congr (h.map _).sum_eq

/-! ## Products -/

namespace PowerProduct

/-- The exponents of the entries for a base, in any order. -/
def exponents (powers : List (Expr × List Expr)) (base : Expr) : Multiset Expr :=
  total Multiset.ofList powers base

/-- What a factor adds to the exponents of a base. -/
def share (base f : Expr) : Multiset Expr :=
  if f.isConstant = false ∧ factorBase f = base then {factorExponent f} else 0

end PowerProduct

namespace Canonical

open PowerProduct

variable {bounds : Bounds}

theorem addExponents_eq_of_perm {es fs : List Expr} (h : es.Perm fs) :
    addExponents es = addExponents fs := by
  match es, fs, h with
  | [], fs, h => rw [List.nil_perm.mp h]
  | [e], fs, h => rw [List.singleton_perm.mp h]
  | _ :: _ :: _, [], h => exact absurd h.length_eq (by simp)
  | _ :: _ :: _, [_], h => exact absurd h.length_eq (by simp)
  | _ :: _ :: _, _ :: _ :: _, h => exact add_eq_of_perm h

/-- The exponent that collects exponents in any order. -/
def collect (exponents : Multiset Expr) : Expr :=
  Quotient.liftOn exponents addExponents fun _ _ h => addExponents_eq_of_perm h

end Canonical

end ClosedForm
