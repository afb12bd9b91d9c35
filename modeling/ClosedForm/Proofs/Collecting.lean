import ClosedForm.Canonical.LinearForm
import ClosedForm.Proofs.Factors

/-!
# Collecting terms

Collecting an expression opens the sums in it, also one behind a coefficient, and adds the coefficient
of every other term to the one that its rest has (`gather_of_ne`). What a form keeps in each of these
steps it keeps when expressions are collected in it (`Gathers`).
-/

namespace ClosedForm.LinearForm

open ClosedForm.Expr

theorem mem_addTerm {e : Expr} {c : Rat} {terms : List (Expr × Rat)} {t : Expr × Rat}
    (h : t ∈ addTerm e c terms) : t.1 = e ∨ ∃ s ∈ terms, t.1 = s.1 := by
  induction terms with
  | nil => simp_all [addTerm]
  | cons s rest ih =>
    rw [addTerm] at h
    split at h
    · next heq =>
      rcases List.mem_cons.mp h with rfl | h
      · exact .inl heq
      · exact .inr ⟨t, by simp [h], rfl⟩
    · rcases List.mem_cons.mp h with rfl | h
      · exact .inr ⟨s, by simp, rfl⟩
      · rcases ih h with h | ⟨s', hs', h⟩
        · exact .inl h
        · exact .inr ⟨s', by simp [hs'], h⟩

theorem keys_addTerm (e : Expr) (c : Rat) (terms : List (Expr × Rat)) :
    (addTerm e c terms).map Prod.fst = terms.map Prod.fst ∨
      e ∉ terms.map Prod.fst ∧
        (addTerm e c terms).map Prod.fst = terms.map Prod.fst ++ [e] := by
  induction terms with
  | nil => exact .inr ⟨by simp, rfl⟩
  | cons t rest ih =>
    rw [addTerm]
    by_cases h : t.1 = e
    · rw [if_pos h]
      exact .inl rfl
    · rw [if_neg h]
      rcases ih with heq | ⟨hnot, heq⟩
      · exact .inl (by simp [heq])
      · exact .inr ⟨by simp [hnot, Ne.symm h], by simp [heq]⟩

/-- Every other summand is a coefficient times a rest. -/
theorem gather_of_ne (scale : Rat) (form : LinearForm) {e : Expr}
    (hconstant : ∀ c, e ≠ .constant c) (hadd : ∀ terms, e ≠ .add terms)
    (hmul : ∀ c terms, e ≠ .mul [.constant c, .add terms]) :
    gather scale form e = { form with
      terms := addTerm e.splitCoefficient.2 (scale * e.splitCoefficient.1)
        form.terms } := by
  unfold gather
  split
  · exact absurd rfl (hconstant _)
  · exact absurd rfl (hadd _)
  · exact absurd rfl (hmul _ _)
  · rfl

/-- Collecting expressions with the property `P` keeps the property `Q` of forms. -/
structure Gathers (P : Expr → Prop) (Q : LinearForm → Prop) : Prop where
  of_add {ts : List Expr} : P (.add ts) → ∀ t ∈ ts, P t
  of_scaled {c : Rat} {ts : List Expr} : P (.mul [.constant c, .add ts]) → P (.add ts)
  constant {form : LinearForm} (c : Rat) : Q form → Q { form with constant := form.constant + c }
  term {form : LinearForm} {e : Expr} (c : Rat) : P e → e.isConstant = false → e.isAdd = false →
    Q form → Q { form with terms := addTerm e.splitCoefficient.2 c form.terms }

namespace Gathers

variable {P : Expr → Prop} {Q : LinearForm → Prop}

mutual

theorem gather (h : Gathers P Q) (scale : Rat) {form : LinearForm} (hform : Q form) (e : Expr)
    (he : P e) : Q (LinearForm.gather scale form e) := by
  unfold LinearForm.gather
  split
  · exact h.constant _ hform
  · next terms => exact h.gatherList scale hform terms (h.of_add he)
  · next c terms => exact h.gatherList (scale * c) hform terms (h.of_add (h.of_scaled he))
  · next hconstant hadd _ =>
    refine h.term _ he (isConstant_eq_false_iff.mpr hconstant) ?_ hform
    cases e <;> first | rfl | exact absurd rfl (hadd _)

theorem gatherList (h : Gathers P Q) (scale : Rat) {form : LinearForm} (hform : Q form)
    (es : List Expr) (hes : ∀ e ∈ es, P e) : Q (LinearForm.gatherList scale form es) := by
  match es with
  | [] => exact hform
  | e :: es =>
    exact h.gatherList scale (h.gather scale hform e (hes e (by simp))) es fun f hf => hes f (by simp [hf])

end

/-- A property that the rests of all terms collected have. -/
theorem of_rests {p : Expr → Prop} (hadd : ∀ {ts}, P (.add ts) → ∀ t ∈ ts, P t)
    (hscaled : ∀ {c ts}, P (.mul [.constant c, .add ts]) → P (.add ts))
    (hrest : ∀ {e}, P e → e.isConstant = false → e.isAdd = false → p e.splitCoefficient.2) :
    Gathers P fun form => ∀ t ∈ form.terms, p t.1 where
  of_add := hadd
  of_scaled := hscaled
  constant _ hform := hform
  term _ he hconstant hisAdd hform t ht := by
    rcases mem_addTerm ht with heq | ⟨s, hs, heq⟩
    · exact heq ▸ hrest he hconstant hisAdd
    · exact heq ▸ hform s hs

end Gathers

end ClosedForm.LinearForm
