import ClosedForm.Proofs.Calculus.Differentiation
import ClosedForm.Proofs.History
import ClosedForm.Proofs.Multiples
import ClosedForm.Proofs.Unordered

/-!
# Linearity of the derivative

What the derivative of a normal expression is combined of depends linearly on what the expression is
combined of (`Derivative.exists_rate`), and so the derivative of a sum is the sum of the derivatives
(`Derivative.Reaches.add`, `Derivative.eq_of_sumRule`).

The terms of the sum have other coefficients than those of its summands. The product rule gives the same
products for them but for the coefficient, and these simplify in proportion
(`Derivative.combination_productTerms`), as long as one pass simplifies them: the derivatives have to be
direct (`Derivative.IsDirect`). Other derivatives are not linear.
-/

namespace ClosedForm

open ClosedForm.Expr Canonical

variable {M : Type*} [AddCommGroup M] [Module Rat M] {unit : M} {value : Expr → M} {bounds : Bounds}
  {name : String} {memo later : Memo}

/-! ## Expressions that one pass simplifies -/

namespace Canonical

/-- The rules alone take the expression in one pass to a form that they leave as it is, and so for all
its subexpressions. -/
def Simplifies (bounds : Bounds) (e r : Expr) : Prop :=
  Direct bounds e ∧ pass bounds .empty e = .ok r

theorem Simplifies.normal {e r : Expr} (h : Simplifies bounds e r) : Normal bounds r :=
  h.1.normal h.2

theorem Simplifies.node {e r : Expr} (h : Simplifies bounds e r) :
    ∃ rs, List.Forall₂ (Simplifies bounds) e.children rs ∧
      simplifyNode bounds (e.withChildren rs) = .ok r := by
  have hpass := h.2
  rw [pass_eq, bind_eq_ok] at hpass
  obtain ⟨rs, hrs, hstep⟩ := hpass
  refine ⟨rs, forall₂_imp_of_mem (mapM_eq_ok.mp hrs) fun c hc s hs => ⟨h.1.of_mem_children hc, hs⟩, ?_⟩
  rwa [passStep_of_not_find (Memo.find?_empty e)] at hstep

theorem Simplifies.sum {ts : List Expr} {r : Expr} (h : Simplifies bounds (Expr.sum ts) r) :
    ∃ rs, List.Forall₂ (Simplifies bounds) ts rs ∧ r = add rs := by
  match ts with
  | [] =>
    have hempty : add [] = .zero := by cbv
    exact ⟨[], .nil, hempty ▸ Except.ok.inj (h.2.symm.trans (pass_empty_normal (.constant 0)))⟩
  | [t] => exact ⟨[r], .cons h .nil, (add_singleton h.normal).symm⟩
  | s :: t :: ts =>
    obtain ⟨rs, hrs, hr⟩ := h.node
    exact ⟨rs, hrs, (Except.ok.inj hr).symm⟩

theorem Simplifies.product {d r : Expr} {xs : List Expr} (hxs : ∀ x ∈ xs, Normal bounds x)
    (h : Simplifies bounds (Expr.product (d :: xs)) r) :
    ∃ p, pass bounds .empty d = .ok p ∧ multiply bounds (p :: xs) = .ok r := by
  match xs with
  | [] => exact ⟨r, h.2, multiply_singleton h.normal⟩
  | x :: xs =>
    obtain ⟨ps, hps, hr⟩ := h.node
    obtain ⟨p, qs, hp, hqs, rfl⟩ := List.forall₂_cons_left_iff.mp hps
    have hsame : x :: xs = qs := by
      simpa using map_eq_of_forall₂ (f := id) (g := id) (forall₂_imp_of_mem hqs fun y hy q hq =>
        Except.ok.inj ((pass_empty_normal (hxs y hy)).symm.trans hq.2))
    exact ⟨p, hp.2, hsame ▸ hr⟩

theorem simplifies_add {ts : List Expr} (h : ∀ t ∈ ts, Normal bounds t) :
    Simplifies bounds (.add ts) (add ts) := by
  have hpass : pass bounds .empty (.add ts) = .ok (add ts) := by
    have hchildren : (Expr.add ts).children.mapM (pass bounds .empty) = .ok ts := by
      rw [mapM_eq_ok, children, List.forall₂_same]
      exact fun t ht => pass_empty_normal (h t ht)
    rw [pass_eq, hchildren]
    rfl
  refine ⟨.of_children (fun t ht => (h t ht).direct) fun r hr => ?_, hpass⟩
  obtain rfl := Except.ok.inj (hpass.symm.trans hr)
  exact pass_empty_normal (normal_add h)

theorem Normal.simplifies {e : Expr} (h : Normal bounds e) : Simplifies bounds e e :=
  ⟨h.direct, pass_empty_normal h⟩

/-- The memo does not matter. -/
theorem Simplifies.eq_of_run (hpasses : 2 ≤ bounds.maxPasses) (hmemo : memo.Reachable bounds)
    {e c r : Expr} (h : Simplifies bounds e c)
    (hrun : (canonicalize bounds e).run.run memo = (.ok r, later)) : r = c := by
  have houtcome := canonicalize_direct hpasses hmemo h.1
  rw [hrun, h.2] at houtcome
  exact Except.ok.inj houtcome

end Canonical

/-! ## The derivative of a term -/

namespace Derivative

theorem withFactor_append (c : Rat) (gs hs : List Expr) :
    withFactor c gs ++ hs = withFactor c (gs ++ hs) := by
  unfold withFactor
  split <;> rfl

theorem normal_of_mem_withFactor {c : Rat} {gs : List Expr} (h : ∀ g ∈ gs, Normal bounds g) :
    ∀ g ∈ withFactor c gs, Normal bounds g := by
  intro g hg
  rcases mem_withFactor hg with rfl | hg
  · exact .constant c
  · exact h g hg

/-- The terms of the product rule for two coefficients in front of the same factors. -/
theorem combination_productTerms {c d : Rat} (hc : c ≠ 0) (hd : d ≠ 0) {before : List Expr}
    {pairs : List (Expr × Expr)} (hbefore : ∀ g ∈ before, Normal bounds g)
    (hpairs : ∀ p ∈ pairs, Normal bounds p.1) {rs ss : List Expr}
    (hrs : List.Forall₂ (Simplifies bounds) (productTerms (withFactor c before) pairs) rs)
    (hss : List.Forall₂ (Simplifies bounds) (productTerms (withFactor d before) pairs) ss) :
    d • (rs.map (Expr.combination unit value)).sum =
      c • (ss.map (Expr.combination unit value)).sum := by
  induction pairs generalizing before rs ss with
  | nil =>
    cases hrs
    cases hss
    simp
  | cons p pairs ih =>
    obtain ⟨g, dg⟩ := p
    obtain ⟨hg, hrest⟩ := List.forall_mem_cons.mp hpairs
    have hbefore' : ∀ x ∈ before ++ [g], Normal bounds x :=
      List.forall_mem_append.mpr ⟨hbefore, by simpa using hg⟩
    have hothers : ∀ x ∈ before ++ pairs.map Prod.fst, Normal bounds x :=
      List.forall_mem_append.mpr ⟨hbefore, by simpa using hrest⟩
    simp only [productTerms, withFactor_append, List.cons_append] at hrs hss
    split at hrs
    · next hzero =>
      rw [if_pos hzero] at hss
      exact ih hbefore' hrest hrs hss
    · next hzero =>
      rw [if_neg hzero] at hss
      obtain ⟨r, rs', hr, hrs', rfl⟩ := List.forall₂_cons_left_iff.mp hrs
      obtain ⟨s, ss', hs, hss', rfl⟩ := List.forall₂_cons_left_iff.mp hss
      obtain ⟨p, hp, hr'⟩ := hr.product (normal_of_mem_withFactor hothers)
      obtain ⟨q, hq, hs'⟩ := hs.product (normal_of_mem_withFactor hothers)
      obtain rfl := Except.ok.inj (hp.symm.trans hq)
      rw [List.map_cons, List.map_cons, List.sum_cons, List.sum_cons, smul_add, smul_add,
        combination_multiply hc hd hr' hr.normal hs' hs.normal, ih hbefore' hrest hrs' hss']

/-- The derivative of a term by the product rule. -/
theorem ofCanonical_term {c : Rat} {gs : List Expr} (h : FactorShape gs) {raw : Expr}
    (hraw : ofCanonical name (Expr.product (withFactor c gs)) = .ok raw) :
    ∃ ds, gs.mapM (ofCanonical name) = .ok ds ∧
      raw = Expr.sum (productTerms (withFactor c []) (gs.zip ds)) := by
  by_cases hc : c = 1
  · rw [hc, withFactor_one] at hraw ⊢
    match gs, h with
    | [], h => exact absurd rfl h.ne_nil
    | [g], h =>
      refine ⟨[raw], mapM_eq_ok.mpr (.cons hraw .nil), ?_⟩
      by_cases hzero : raw.isZero = true
      · simp [productTerms, eq_zero_of_isZero hzero, Expr.zero, isZero, Expr.sum]
      · simp [productTerms, hzero, Expr.sum, Expr.product]
    | f :: g :: gs, h =>
      rw [show Expr.product (f :: g :: gs) = .mul (f :: g :: gs) from rfl, ofCanonical_eq] at hraw
      obtain ⟨ds, hds, hraw⟩ := bind_eq_ok.mp hraw
      exact ⟨ds, hds, (Except.ok.inj hraw).symm⟩
  · rw [h.product_withFactor_of_ne hc, ofCanonical_eq] at hraw
    obtain ⟨ds', hds', hraw⟩ := bind_eq_ok.mp hraw
    obtain ⟨zero, ds, hzero, hds, rfl⟩ := List.forall₂_cons_left_iff.mp (mapM_eq_ok.mp hds')
    cases (ofCanonical_eq (.constant c)).symm.trans hzero
    refine ⟨ds, mapM_eq_ok.mpr hds, ?_⟩
    rw [withFactor_of_ne hc]
    exact (Except.ok.inj hraw).symm

/-- The derivative of an expression is direct, and becomes `r` in one pass. -/
def Reaches (bounds : Bounds) (name : String) (e r : Expr) : Prop :=
  ∃ raw, ofCanonical name e = .ok raw ∧ Simplifies bounds raw r

theorem Reaches.normal {e r : Expr} (h : Reaches bounds name e r) : Normal bounds r := by
  obtain ⟨raw, -, hr⟩ := h
  exact hr.normal

/-- The derivatives of two terms that differ in their coefficient. -/
theorem Reaches.combination_term {c d : Rat} {gs : List Expr} (hshape : FactorShape gs)
    (hgs : ∀ g ∈ gs, Normal bounds g) (hc : c ≠ 0) (hd : d ≠ 0) {r s : Expr}
    (hr : Reaches bounds name (Expr.product (withFactor c gs)) r)
    (hs : Reaches bounds name (Expr.product (withFactor d gs)) s) :
    d • r.combination unit value = c • s.combination unit value := by
  obtain ⟨raw, hraw, hr⟩ := hr
  obtain ⟨raw', hraw', hs⟩ := hs
  obtain ⟨ds, hds, rfl⟩ := ofCanonical_term hshape hraw
  obtain ⟨ds', hds', rfl⟩ := ofCanonical_term hshape hraw'
  obtain rfl := Except.ok.inj (hds.symm.trans hds')
  obtain ⟨rs, hrs, rfl⟩ := hr.sum
  obtain ⟨ss, hss, rfl⟩ := hs.sum
  have hnormal {ts us : List Expr} (h : List.Forall₂ (Simplifies bounds) ts us) :
      ∀ u ∈ us, Normal bounds u := by
    intro u hu
    obtain ⟨t, -, ht⟩ := exists_of_forall₂_right h hu
    exact ht.normal
  rw [combination_add unit value (hnormal hrs), combination_add unit value (hnormal hss)]
  refine combination_productTerms hc hd (by simp) (fun p hp => ?_) hrs hss
  exact hgs p.1 (List.of_mem_zip hp).1

/-! ## The derivative of a sum -/

/-- What the derivative of a term is combined of depends linearly on the coefficient. -/
theorem exists_slope (unit : M) (value : Expr → M) (bounds : Bounds) (name : String) (e : Expr) :
    ∃ slope : M, ∀ c gs r, e = Expr.product gs → FactorShape gs → (∀ g ∈ gs, Normal bounds g) →
      c ≠ 0 → Reaches bounds name (Expr.product (withFactor c gs)) r →
      r.combination unit value = c • slope := by
  by_cases h : ∃ d hs s, e = Expr.product hs ∧ FactorShape hs ∧ d ≠ 0 ∧
      Reaches bounds name (Expr.product (withFactor d hs)) s
  · obtain ⟨d, hs, s, rfl, hshape', hd, hreaches⟩ := h
    refine ⟨d⁻¹ • s.combination unit value, fun c gs r heq hshape hgs hc hr => ?_⟩
    rw [← hshape'.scale_product, heq, hshape.scale_product] at hreaches
    rw [smul_comm, ← Reaches.combination_term hshape hgs hc hd hr hreaches, inv_smul_smul₀ hd]
  · exact ⟨0, fun c gs r heq hshape _ hc hr => absurd ⟨c, gs, r, heq, hshape, hc, hr⟩ h⟩

/-- A rate for the terms is one for their sums. -/
theorem Reaches.combination_of_terms {rate : Expr → M}
    (hterm : ∀ t r, Normal bounds t → t.isAdd = false → Reaches bounds name t r →
      r.combination unit value = t.combination 0 rate) {e r : Expr} (he : Normal bounds e)
    (hr : Reaches bounds name e r) : r.combination unit value = e.combination 0 rate := by
  cases hadd : e.isAdd with
  | false => exact hterm e r he hadd hr
  | true =>
    cases he with
    | @add ts hts hshape =>
      obtain ⟨raw, hraw, hr⟩ := hr
      rw [ofCanonical_eq] at hraw
      obtain ⟨ds, hds, hraw⟩ := bind_eq_ok.mp hraw
      cases hraw
      obtain ⟨rs, hrs, rfl⟩ := hr.sum
      have hreaches : List.Forall₂ (Reaches bounds name) ts rs :=
        forall₂_comp (mapM_eq_ok.mp hds) hrs
      have hall : List.Forall₂ (fun t r => t.combination 0 rate = r.combination unit value) ts rs :=
        forall₂_imp_of_mem hreaches fun t ht r hr =>
          (hterm t r (hts t ht) (hshape.not_add t ht) hr).symm
      have hsum : (Expr.add ts).combination 0 rate = (ts.map (Expr.combination 0 rate)).sum := by
        rw [← add_of_shape hts hshape, combination_add 0 rate hts]
      have hrnormal : ∀ r ∈ rs, Normal bounds r := by
        intro r hr
        obtain ⟨t, -, ht⟩ := exists_of_forall₂_right hreaches hr
        exact ht.normal
      rw [hsum, combination_add unit value hrnormal, map_eq_of_forall₂ hall]
    | _ => cases hadd

/-- What the derivatives of normal expressions are combined of depends linearly on what the
expressions are combined of, as far as the derivatives are direct. -/
theorem exists_rate (unit : M) (value : Expr → M) (bounds : Bounds) (name : String) :
    ∃ rate : Expr → M, ∀ e r, Normal bounds e → Reaches bounds name e r →
      r.combination unit value = e.combination 0 rate := by
  choose rate hrate using exists_slope unit value bounds name
  refine ⟨rate, fun e r he hr => Reaches.combination_of_terms (fun t r ht hadd hr => ?_) he hr⟩
  cases hconstant : t.isConstant with
  | true =>
    obtain ⟨c, rfl⟩ := isConstant_iff.mp hconstant
    obtain ⟨raw, hraw, hr⟩ := hr
    cases (ofCanonical_eq (.constant c)).symm.trans hraw
    obtain rfl := Except.ok.inj (hr.2.symm.trans (pass_empty_normal (.constant 0)))
    rw [Expr.zero, combination_constant, combination_constant, zero_smul, smul_zero]
  | false =>
    obtain ⟨c, gs, hc, hshape, hgs, rfl⟩ := ht.exists_term hconstant hadd
    rw [hshape.combination_term]
    exact hrate _ c gs r rfl hshape hgs hc hr

/-- The sum rule. -/
theorem Reaches.add {f g df dg w : Expr} (hf : Normal bounds f) (hg : Normal bounds g)
    (hdf : Reaches bounds name f df) (hdg : Reaches bounds name g dg)
    (hw : Reaches bounds name (Canonical.add [f, g]) w) : w = Canonical.add [df, dg] := by
  obtain ⟨rate, hrate⟩ := exists_rate (1, 0) LinearForm.single bounds name
  have hterms : ∀ t ∈ [f, g], Normal bounds t := by simp [hf, hg]
  rw [← add_singleton hw.normal]
  refine add_congr ?_
  simp only [List.map_cons, List.map_nil, List.sum_cons, List.sum_nil, add_zero]
  rw [hrate _ _ (normal_add hterms) hw, hrate f df hf hdf, hrate g dg hg hdg,
    combination_add 0 rate hterms]
  simp

/-! ## Differentiation with a memo -/

/-- The derivative of a canonical expression, before it is canonicalized, is direct. -/
def IsDirect (bounds : Bounds) (name : String) (e : Expr) : Prop :=
  ∀ raw, ofCanonical name e = .ok raw → Direct bounds raw

/-- The computation that decides whether a derivative is direct. -/
def isDirect (bounds : Bounds) (name : String) (e : Expr) : Bool :=
  match ofCanonical name e with
  | .ok raw => Canonical.isDirect bounds raw
  | .error _ => true

theorem isDirect_iff {e : Expr} : isDirect bounds name e = true ↔ IsDirect bounds name e := by
  unfold isDirect IsDirect
  cases ofCanonical name e with
  | ok raw => simp [Canonical.isDirect_iff]
  | error x => simp

/-- The derivative of the sum of two expressions, and the canonical sum of their derivatives. -/
def sumRule (bounds : Bounds) (f g : Expr) (name : String) : Memoizing (Expr × Expr) := do
  let df ← differentiate bounds f name
  let dg ← differentiate bounds g name
  let whole ← differentiate bounds (.add [f, g]) name
  let added ← canonicalize bounds (.add [df, dg])
  return (whole, added)

theorem reaches_of_run (hpasses : 2 ≤ bounds.maxPasses) (hmemo : memo.Reachable bounds)
    {e c d : Expr} (he : Simplifies bounds e c) (hdirect : IsDirect bounds name c)
    (hrun : (differentiate bounds e name).run.run memo = (.ok d, later)) :
    Reaches bounds name c d := by
  obtain ⟨c', middle, raw, hc, hderivative, hrun⟩ := run_differentiate.mp hrun
  obtain rfl := he.eq_of_run hpasses hmemo hc
  have hmiddle := Recording.reachable (.canonicalize e) hmemo hc
  have houtcome := canonicalize_direct hpasses hmiddle (hdirect raw hderivative)
  rw [hrun] at houtcome
  exact ⟨raw, hderivative, hdirect raw hderivative, houtcome.symm⟩

/-- Where the derivatives are direct, the memo does not matter, and the sum rule holds. -/
theorem eq_of_sumRule (hpasses : 2 ≤ bounds.maxPasses) (hmemo : memo.Reachable bounds)
    {f g whole added : Expr} (hf : Canonical.Normal bounds f) (hg : Canonical.Normal bounds g)
    (hdf : IsDirect bounds name f) (hdg : IsDirect bounds name g)
    (hsum : IsDirect bounds name (Canonical.add [f, g]))
    (hrun : (sumRule bounds f g name).run.run memo = (.ok (whole, added), later)) :
    whole = added := by
  obtain ⟨df, _, hf', hrun⟩ := run_bind_eq_ok.mp hrun
  have hmemo₁ := Recording.reachable (.differentiate f name) hmemo hf'
  obtain ⟨dg, _, hg', hrun⟩ := run_bind_eq_ok.mp hrun
  have hmemo₂ := Recording.reachable (.differentiate g name) hmemo₁ hg'
  obtain ⟨w, _, hw, hrun⟩ := run_bind_eq_ok.mp hrun
  have hmemo₃ := Recording.reachable (.differentiate (.add [f, g]) name) hmemo₂ hw
  obtain ⟨a, _, ha, hrun⟩ := run_bind_eq_ok.mp hrun
  cases hrun
  have hreachf := reaches_of_run hpasses hmemo hf.simplifies hdf hf'
  have hreachg := reaches_of_run hpasses hmemo₁ hg.simplifies hdg hg'
  have hreach := reaches_of_run hpasses hmemo₂ (simplifies_add (by simp [hf, hg])) hsum hw
  have hparts : Simplifies bounds (.add [df, dg]) (Canonical.add [df, dg]) :=
    simplifies_add (by simp [hreachf.normal, hreachg.normal])
  rw [hreachf.add hf hg hreachg hreach, hparts.eq_of_run hpasses hmemo₃ ha]

end Derivative

end ClosedForm
