import ClosedForm.Proofs.Expansion.Distribution
import ClosedForm.Proofs.Expansion.Standing

/-!
# What expansion leaves as it is

A normal product of factors that are no sums is one product of terms, so distributing it gives it back
(`Expand.distribute_of_shape`), and a power of a sum with an exponent that stays is not multiplied out
(`Expand.expandPower_eq_power`). So expansion changes nothing in a normal expression in which nothing is
left to multiply out (`Expand.expandNodes_of_apart`).
-/

namespace ClosedForm

open ClosedForm.Expr Canonical

variable {bounds : Bounds} {F : Func → Prop}

/-! ## Products without sums -/

namespace Canonical.IsTerm

variable {c : Rat} {fs gs : List Expr}

theorem isAdd (h : IsTerm bounds c gs) : (Expr.product (withFactor c gs)).isAdd = false := by
  rcases h.shape with rfl | hshape
  · rw [product_withFactor_nil]
    rfl
  · exact hshape.isAdd_term

/-- The first factors of a term, if there is no sum among the factors. -/
theorem of_append (h : IsTerm bounds c (fs ++ gs)) (hadd : ∀ g ∈ fs ++ gs, g.isAdd = false) :
    IsTerm bounds c fs := by
  have hsub : fs.Sublist (fs ++ gs) := List.sublist_append_left fs gs
  refine ⟨h.ne_zero, fun g hg => h.factors g (hsub.subset hg), ?_⟩
  by_cases hnil : fs = []
  · exact .inl hnil
  have hshape : FactorShape (fs ++ gs) := h.shape.resolve_left (by simp [hnil])
  refine .inr ⟨hnil, fun g hg => hshape.not_constant g (hsub.subset hg),
    fun g hg => hshape.not_mul g (hsub.subset hg), hshape.ascending.sublist hsub,
    hshape.bases.sublist (hsub.map factorBase), ?_⟩
  rintro ts rfl
  cases hadd (.add ts) (by simp)

end Canonical.IsTerm

namespace Expand

/-- One product and a factor that is no sum. -/
theorem distributeOver_of_multiply {p factor r : Expr} (hfactor : factor.isAdd = false)
    (hr : multiply bounds [p, factor] = .ok r) (hnormal : Normal bounds r) (hadd : r.isAdd = false) :
    distributeOver bounds [p] factor = .ok [r] := by
  unfold distributeOver
  rw [List.flatMapM_cons, List.flatMapM_nil, terms_of_not_isAdd hfactor, List.mapM_cons, List.mapM_nil, hr]
  show Except.ok (Canonical.add [r]).terms = _
  rw [add_singleton hnormal, terms_of_not_isAdd hadd]

/-- The factors of a term are multiplied one after the other. -/
theorem foldlM_distributeOver {c : Rat} {done rest : List Expr} (h : IsTerm bounds c (done ++ rest))
    (hadd : ∀ g ∈ done ++ rest, g.isAdd = false) :
    rest.foldlM (distributeOver bounds) [Expr.product (withFactor c done)] =
      .ok [Expr.product (withFactor c (done ++ rest))] := by
  induction rest generalizing done with
  | nil =>
    rw [List.append_nil]
    rfl
  | cons g rest ih =>
    have hdone := h.of_append hadd
    have hshape : FactorShape (done ++ g :: rest) := h.shape.resolve_left (by simp)
    have hg : Collects [g] 1 [g] := collects_of_not_mul
      (by simpa using hshape.not_constant g (by simp)) (by simpa using hshape.not_mul g (by simp))
    rw [List.append_cons] at h hadd ⊢
    have hnext := h.of_append hadd
    have hcollects := hdone.collects.append hg
    rw [mul_one] at hcollects
    rw [List.foldlM_cons, distributeOver_of_multiply (hadd g (by simp)) (hnext.multiply hcollects)
      hnext.normal hnext.isAdd]
    exact ih h hadd

/-- A normal product of factors that are no sums is left as it is. -/
theorem distribute_of_shape {c : Rat} {gs : List Expr} (h : IsTerm bounds c gs)
    (hadd : ∀ g ∈ gs, g.isAdd = false) :
    distribute bounds (withFactor c gs) = .ok (Expr.product (withFactor c gs)) := by
  have hfactors : gs.foldlM (distributeOver bounds) [Expr.product (withFactor c [])] =
      .ok [Expr.product (withFactor c gs)] := foldlM_distributeOver h hadd
  have hcoefficient : (withFactor c gs).foldlM (distributeOver bounds) [.one] =
      gs.foldlM (distributeOver bounds) [Expr.product (withFactor c [])] := by
    by_cases hc : c = 1
    · rw [hc, withFactor_one]
      rfl
    · have hone : multiply bounds [.constant 1, .constant c] = .ok (.constant c) := by
        rw [multiply_constants, one_mul]
      rw [product_withFactor_nil, withFactor_of_ne hc, List.foldlM_cons]
      exact congrArg (· >>= _) (distributeOver_of_multiply rfl hone (.constant c) rfl)
  unfold distribute
  rw [hcoefficient, hfactors]
  show Except.ok (Canonical.add [_]) = _
  rw [add_singleton h.normal]

/-! ## All nodes -/

/-- A power of a sum is multiplied out only if its exponent does not stay. -/
theorem expandPower_eq_power {base exponent : Expr} (h : base.isAdd = true → exponent.Stays bounds) :
    expandPower bounds base exponent = power bounds base exponent := by
  unfold expandPower
  split
  · next n hn =>
    obtain rfl := constant?_eq_some.mp hn
    split
    · next hcondition =>
      simp only [Bool.and_eq_true, decide_eq_true_eq] at hcondition
      obtain ⟨⟨⟨hint, hadd⟩, -⟩, hle⟩ := hcondition
      obtain rfl := h hadd n rfl hint hle
      rfl
    · rfl
  · rfl

end Expand

/-- What is part of an expression in which nothing is left to multiply out. -/
theorem Expr.Apart.of_mem_children {c e : Expr} (h : e.Apart bounds true F) (hc : c ∈ e.children) :
    ∃ G, c.Apart bounds true G := by
  cases e with
  | constant | symbol => cases hc
  | add => exact ⟨F, h.of_mem_add c hc⟩
  | mul => exact ⟨F, h.of_mem_mul c hc⟩
  | pow base exponent =>
    have hboth : base.Apart bounds true F ∧ exponent.Apart bounds true F := by
      rcases h.pow_cases with ⟨hbase, -, hexponent⟩ | ⟨ts, rfl, hbase, -, -, hexponent, -⟩
      · exact ⟨hbase, hexponent⟩
      · exact ⟨hbase, hexponent⟩
    rcases List.mem_pair.mp hc with rfl | rfl
    · exact ⟨F, hboth.1⟩
    · exact ⟨F, hboth.2⟩
  | function f =>
    cases h with
    | function _ harguments => exact ⟨f.Without F, harguments c hc⟩

/-- Expansion leaves a normal expression as it is if nothing is left to multiply out. -/
theorem Expand.expandNodes_of_apart {e : Expr} (hnormal : Normal bounds e) (h : e.Apart bounds true F) :
    expandNodes bounds e = .ok e := by
  induction e using Expr.induction generalizing F with
  | node e ih =>
    have hchildren : e.children.mapM (expandNodes bounds) = .ok e.children := by
      refine mapM_eq_ok.mpr (List.forall₂_same.mpr fun c hc => ?_)
      obtain ⟨G, hG⟩ := h.of_mem_children hc
      exact ih c hc (hnormal.of_mem_children hc) hG
    rw [expandNodes_eq, hchildren]
    show expandNode bounds (e.withChildren e.children) = _
    rw [withChildren_children]
    cases e with
    | constant | symbol | function => rfl
    | add => exact simplifyNode_normal hnormal
    | mul fs =>
      have hrule := simplifyNode_normal hnormal
      obtain ⟨c, gs, rfl, hc, hshape⟩ := hnormal.exists_withFactor
      have hterm : IsTerm bounds c gs := ⟨hc, fun g hg =>
        hnormal.of_mem_children (mem_withFactor_of_mem hg c), .inr hshape⟩
      have hdistribute := distribute_of_shape hterm fun g hg =>
        h.isAdd_of_mem_mul g (mem_withFactor_of_mem hg c)
      rw [← multiply_of_shape hc hterm.factors hshape] at hdistribute
      exact hdistribute.trans hrule
    | pow base exponent =>
      have hstays : base.isAdd = true → exponent.Stays bounds := by
        intro hadd
        rcases h.pow_cases with ⟨-, hfree, -⟩ | ⟨_, _, -, -, -, -, hstays⟩
        · rw [isAdd_of_sumFree hfree] at hadd
          cases hadd
        · exact hstays
      exact (expandPower_eq_power hstays).trans (simplifyNode_normal hnormal)

end ClosedForm
