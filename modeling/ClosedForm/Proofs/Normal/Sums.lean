import ClosedForm.Proofs.Normal.Shape

/-!
# Sums of normal terms

Collecting normal terms keeps the expressions that carry coefficients normal, distinct and free
of coefficients (`LinearForm.Normal`), so the sum of normal terms is normal
(`Normal.toExpr`, `normal_add`). A normal sum collects into a form with the same terms, and
adding them up again, in any order, gives it back (`add_of_perm`).
-/

namespace ClosedForm

open ClosedForm.Expr Canonical

namespace LinearForm

variable {bounds : Bounds}

/-! ## Terms of a form -/

/-- The terms that a form stands for, in the order of the form. -/
def parts (form : LinearForm) : List Expr :=
  (if form.constant = 0 then [] else [Expr.constant form.constant]) ++
    form.terms.filterMap fun t => if t.2 = 0 then none else some (Expr.scale t.2 t.1)

theorem toExpr_eq (form : LinearForm) : form.toExpr = Expr.sum (Expr.sort form.parts) := rfl

/-- The expressions that carry coefficients are products of normal factors, and distinct. -/
structure Normal (bounds : Bounds) (form : LinearForm) : Prop where
  rests : ∀ t ∈ form.terms, ∃ gs, FactorShape gs ∧ (∀ g ∈ gs, Canonical.Normal bounds g) ∧
    t.1 = Expr.product gs
  distinct : (form.terms.map Prod.fst).Nodup

theorem normal_zero : LinearForm.Normal bounds .zero where
  rests := by simp [zero]
  distinct := by simp [zero]

theorem addTerm_of_not_mem {e : Expr} {c : Rat} {terms : List (Expr × Rat)}
    (h : e ∉ terms.map Prod.fst) : addTerm e c terms = terms ++ [(e, c)] := by
  induction terms with
  | nil => rfl
  | cons t rest ih =>
    simp only [List.map_cons, List.mem_cons, not_or] at h
    rw [addTerm, if_neg (Ne.symm h.1), ih h.2, List.cons_append]

theorem Normal.addTerm {form : LinearForm} (h : form.Normal bounds) {gs : List Expr} (c : Rat)
    (hshape : FactorShape gs) (hgs : ∀ g ∈ gs, Canonical.Normal bounds g) :
    LinearForm.Normal bounds { form with terms := LinearForm.addTerm (Expr.product gs) c form.terms } where
  rests t ht := by
    rcases mem_addTerm ht with heq | ⟨s, hs, heq⟩
    · exact ⟨gs, hshape, hgs, heq⟩
    · rw [heq]
      exact h.rests s hs
  distinct := by
    rcases keys_addTerm (Expr.product gs) c form.terms with heq | ⟨hnot, heq⟩
    · rw [heq]
      exact h.distinct
    · rw [heq]
      exact h.distinct.append (List.nodup_singleton _) (by simpa using hnot)

/-! ## Collecting -/

/-- A term is collected under the product of its factors. -/
theorem gather_term {c : Rat} {gs : List Expr} (h : FactorShape gs) (scale : Rat)
    (form : LinearForm) :
    gather scale form (Expr.product (withFactor c gs)) =
      { form with terms := LinearForm.addTerm (Expr.product gs) (scale * c) form.terms } := by
  have hsplit := h.splitCoefficient_term (c := c)
  have hconstant := h.isConstant_term (c := c)
  have hadd := h.isAdd_term (c := c)
  generalize hterm : Expr.product (withFactor c gs) = t at *
  unfold gather
  split
  · cases hconstant
  · cases hadd
  · next d terms =>
    -- A coefficient in front of a sum is no term.
    have hgs : Expr.product gs = .add terms := (congrArg Prod.snd hsplit).symm
    have hnot := h.isAdd_product
    rw [hgs] at hnot
    cases hnot
  · rw [hsplit]

/-- Collecting normal expressions keeps a form normal. -/
theorem gathers_normal : Gathers (Canonical.Normal bounds) (LinearForm.Normal bounds) where
  of_add he _ ht := he.of_mem_children ht
  of_scaled he := he.of_mem_children (by simp [children])
  constant _ hform := ⟨hform.rests, hform.distinct⟩
  term c he hconstant hadd hform := by
    obtain ⟨d, gs, -, hshape, hgs, rfl⟩ := he.exists_term hconstant hadd
    rw [hshape.splitCoefficient_term]
    exact hform.addTerm c hshape hgs

theorem Normal.gather {form : LinearForm} (h : form.Normal bounds) (scale : Rat) (e : Expr)
    (he : Canonical.Normal bounds e) : (LinearForm.gather scale form e).Normal bounds :=
  gathers_normal.gather scale h e he

theorem Normal.gatherList {form : LinearForm} (h : form.Normal bounds) (scale : Rat)
    (es : List Expr) (hes : ∀ e ∈ es, Canonical.Normal bounds e) :
    (LinearForm.gatherList scale form es).Normal bounds :=
  gathers_normal.gatherList scale h es hes

/-! ## Adding up -/

theorem mem_parts {form : LinearForm} {e : Expr} :
    e ∈ form.parts ↔ (form.constant ≠ 0 ∧ e = .constant form.constant) ∨
      ∃ t ∈ form.terms, t.2 ≠ 0 ∧ e = t.1.scale t.2 := by
  unfold parts
  rw [List.mem_append, List.mem_filterMap]
  refine or_congr ?_ (exists_congr fun t => and_congr_right fun _ => ?_)
  · split <;> simp_all
  · split <;> simp_all [eq_comm]

/-- The terms of a normal form are normal terms. -/
theorem Normal.of_mem_parts {form : LinearForm} (h : form.Normal bounds) {e : Expr}
    (he : e ∈ form.parts) : Canonical.Normal bounds e ∧ e.isAdd = false ∧ e ≠ .zero := by
  rcases mem_parts.mp he with ⟨hne, rfl⟩ | ⟨t, ht, hne, rfl⟩
  · exact ⟨.constant _, rfl, fun heq => hne (Expr.constant.inj heq)⟩
  · obtain ⟨gs, hshape, hgs, hrest⟩ := h.rests t ht
    rw [hrest, hshape.scale_product]
    refine ⟨hshape.normal_term hne hgs, hshape.isAdd_term, fun heq => ?_⟩
    have hconstant := hshape.isConstant_term (c := t.2)
    rw [heq] at hconstant
    cases hconstant

theorem Normal.rests_parts {form : LinearForm} (h : form.Normal bounds) :
    form.parts.map (fun e => e.splitCoefficient.2) =
      (if form.constant = 0 then [] else [Expr.one]) ++
        (form.terms.filter fun t => t.2 ≠ 0).map Prod.fst := by
  unfold parts
  rw [List.map_append]
  congr 1
  · split <;> rfl
  · have hrests := h.rests
    generalize form.terms = terms at hrests
    induction terms with
    | nil => rfl
    | cons t terms ih =>
      have ih' := ih fun s hs => hrests s (by simp [hs])
      by_cases ht : t.2 = 0
      · simpa [ht] using ih'
      · obtain ⟨gs, hshape, -, hrest⟩ := hrests t (by simp)
        have hscale : (t.1.scale t.2).splitCoefficient.2 = t.1 := by
          rw [hrest, hshape.scale_product, hshape.splitCoefficient_term]
        simpa [ht, hscale] using ih'

/-- No two terms of a normal form differ in their coefficient only. -/
theorem Normal.nodup_rests {form : LinearForm} (h : form.Normal bounds) :
    (form.parts.map fun e => e.splitCoefficient.2).Nodup := by
  rw [h.rests_parts]
  have hkeys : ((form.terms.filter fun t => t.2 ≠ 0).map Prod.fst).Nodup :=
    h.distinct.sublist (List.filter_sublist.map _)
  split
  · exact hkeys
  · refine List.nodup_cons.mpr ⟨fun hone => ?_, hkeys⟩
    obtain ⟨t, ht, heq⟩ := List.mem_map.mp hone
    obtain ⟨gs, hshape, -, hrest⟩ := h.rests t (List.mem_filter.mp ht).1
    have hconstant := hshape.isConstant_product
    rw [← hrest, heq] at hconstant
    cases hconstant

/-- The sum of the terms of a normal form is normal. -/
theorem Normal.toExpr {form : LinearForm} (h : form.Normal bounds) :
    Canonical.Normal bounds form.toExpr := by
  rw [toExpr_eq]
  have hmem : ∀ e ∈ Expr.sort form.parts,
      Canonical.Normal bounds e ∧ e.isAdd = false ∧ e ≠ .zero := by
    intro e he
    exact h.of_mem_parts (mem_sort.mp he)
  have hnodup : ((Expr.sort form.parts).map fun e => e.splitCoefficient.2).Nodup :=
    ((sort_perm form.parts).map _).nodup_iff.mpr h.nodup_rests
  have hascending := ascending_sort form.parts
  generalize Expr.sort form.parts = ts at *
  match ts with
  | [] => exact .constant 0
  | [t] => exact (hmem t (by simp)).1
  | s :: t :: ts =>
    exact .add (fun e he => (hmem e he).1)
      ⟨by simp, fun e he => (hmem e he).2.1, fun hzero => (hmem _ hzero).2.2 rfl, hascending, hnodup⟩

/-! ## Normal sums -/

/-- A new term joins the terms of a form. -/
theorem parts_gather {form : LinearForm} (h : form.Normal bounds)
    (hne : ∀ t ∈ form.terms, t.2 ≠ 0) {e : Expr} (he : Canonical.Normal bounds e)
    (hadd : e.isAdd = false) (hzero : e ≠ .zero)
    (hnew : e.splitCoefficient.2 ∉ form.parts.map fun f => f.splitCoefficient.2) :
    (∀ t ∈ (LinearForm.gather 1 form e).terms, t.2 ≠ 0) ∧
      (LinearForm.gather 1 form e).parts.Perm (e :: form.parts) := by
  rw [h.rests_parts, List.mem_append, not_or] at hnew
  cases hconstant : e.isConstant with
  | true =>
    obtain ⟨c, rfl⟩ := isConstant_iff.mp hconstant
    have hform : form.constant = 0 := by
      by_contra hform
      exact hnew.1 (by simp [hform, Expr.splitCoefficient])
    have hc : c ≠ 0 := by
      rintro rfl
      exact hzero rfl
    rw [LinearForm.gather]
    refine ⟨hne, ?_⟩
    simp only [parts, hform, zero_add, one_mul, hc, if_true, if_false, List.nil_append,
      List.singleton_append]
    exact List.Perm.refl _
  | false =>
    obtain ⟨c, gs, hc, hshape, -, rfl⟩ := he.exists_term hconstant hadd
    have hnot : Expr.product gs ∉ form.terms.map Prod.fst := by
      have hfilter : (form.terms.filter fun t => t.2 ≠ 0) = form.terms :=
        List.filter_eq_self.mpr fun t ht => by simpa using hne t ht
      rw [hshape.splitCoefficient_term, hfilter] at hnew
      exact hnew.2
    rw [gather_term hshape, addTerm_of_not_mem hnot, one_mul]
    constructor
    · intro t ht
      rcases List.mem_append.mp ht with ht | ht
      · exact hne t ht
      · rw [List.mem_singleton.mp ht]
        exact hc
    · simp only [parts, List.filterMap_append, List.filterMap_cons, List.filterMap_nil, hc,
        if_false, hshape.scale_product]
      rw [← List.append_assoc]
      exact List.perm_append_singleton _ _

theorem parts_gatherList {form : LinearForm} (h : form.Normal bounds)
    (hne : ∀ t ∈ form.terms, t.2 ≠ 0) {es : List Expr}
    (hes : ∀ e ∈ es, Canonical.Normal bounds e ∧ e.isAdd = false ∧ e ≠ .zero)
    (hdistinct : ((form.parts ++ es).map fun f => f.splitCoefficient.2).Nodup) :
    (LinearForm.gatherList 1 form es).parts.Perm (form.parts ++ es) := by
  induction es generalizing form with
  | nil =>
    rw [LinearForm.gatherList, List.append_nil]
  | cons e es ih =>
    obtain ⟨he, hadd, hzero⟩ := hes e (by simp)
    have hnew : e.splitCoefficient.2 ∉ form.parts.map fun f => f.splitCoefficient.2 := by
      rw [List.map_append, List.map_cons] at hdistinct
      exact fun hmem => (List.nodup_append.mp hdistinct).2.2 _ hmem _ (by simp) rfl
    obtain ⟨hne', hperm⟩ := parts_gather h hne he hadd hzero hnew
    have hmove : ((LinearForm.gather 1 form e).parts ++ es).Perm (form.parts ++ e :: es) :=
      (hperm.append_right es).trans List.perm_middle.symm
    rw [LinearForm.gatherList]
    refine (ih (h.gather 1 e he) hne' (fun f hf => hes f (by simp [hf])) ?_).trans hmove
    exact (hmove.map _).nodup_iff.mpr hdistinct

/-! ## Terms of sums -/

/-- A sum is collected as its terms are. -/
theorem gather_eq_terms (scale : Rat) (form : LinearForm) (e : Expr) :
    gather scale form e = gatherList scale form e.terms := by
  cases e <;> rfl

theorem gatherList_flatMap_terms (scale : Rat) (form : LinearForm) (es : List Expr) :
    gatherList scale form (es.flatMap Expr.terms) = gatherList scale form es := by
  induction es generalizing form with
  | nil => rfl
  | cons e es ih =>
    rw [List.flatMap_cons, gatherList_eq_foldl, List.foldl_append, ← gatherList_eq_foldl,
      ← gatherList_eq_foldl, ← gather_eq_terms, ih, gatherList]

/-- The property holds of constants, and holds of a term whatever its coefficient is. -/
structure OfRests (Q : Expr → Prop) : Prop where
  constant : ∀ c, Q (.constant c)
  term : ∀ {c gs}, FactorShape gs → Q (Expr.product (withFactor c gs)) →
    ∀ d, Q (Expr.product (withFactor d gs))

variable {Q : Expr → Prop}

theorem forall_rests_gatherList (hQ : OfRests Q) (scale : Rat) {form : LinearForm} {ts : List Expr}
    (hform : ∀ t ∈ form.terms, Q t.1)
    (hts : ∀ t ∈ ts, Canonical.Normal bounds t ∧ t.isAdd = false ∧ Q t) :
    ∀ t ∈ (LinearForm.gatherList scale form ts).terms, Q t.1 := by
  refine Gathers.gatherList (P := fun t => Canonical.Normal bounds t ∧ t.isAdd = false ∧ Q t)
    (.of_rests (fun he => by cases he.2.1) (fun he => ?_) fun he hconstant _ => ?_) scale hform ts hts
  · -- A coefficient in front of a sum is no term.
    obtain ⟨d, gs, -, hshape, -, heq⟩ := he.1.exists_term rfl rfl
    have hsplit := hshape.splitCoefficient_term (c := d)
    have hnot := hshape.isAdd_product
    rw [← heq] at hsplit
    have hsum : Expr.product gs = .add _ := (congrArg Prod.snd hsplit).symm
    rw [hsum] at hnot
    cases hnot
  · obtain ⟨c, gs, -, hshape, -, rfl⟩ := he.1.exists_term hconstant he.2.1
    rw [hshape.splitCoefficient_term, ← withFactor_one gs]
    exact hQ.term hshape he.2.2 1

theorem mem_terms_toExpr {form : LinearForm} (h : form.Normal bounds) {t : Expr}
    (ht : t ∈ form.toExpr.terms) : t = .zero ∨ t ∈ form.parts := by
  rw [toExpr_eq] at ht
  have hmem : ∀ e ∈ Expr.sort form.parts, e ∈ form.parts := fun e he => mem_sort.mp he
  generalize Expr.sort form.parts = ts at *
  match ts with
  | [] => exact .inl (List.mem_singleton.mp ht)
  | [s] =>
    have hadd := (h.of_mem_parts (hmem s (by simp))).2.1
    refine .inr (hmem t ?_)
    rw [← terms_of_not_isAdd hadd]
    exact ht
  | _ :: _ :: _ => exact .inr (hmem t ht)

/-- What the terms of some expressions have in common apart from their coefficients, the terms of their
sum have as well. -/
theorem forall_terms_gatherList (hQ : OfRests Q) (scale : Rat) {es : List Expr}
    (hes : ∀ e ∈ es, Canonical.Normal bounds e) (h : ∀ e ∈ es, ∀ t ∈ e.terms, Q t) :
    ∀ t ∈ (LinearForm.gatherList scale .zero es).toExpr.terms, Q t := by
  have hnormal := normal_zero.gatherList scale es hes
  have hterms : ∀ t ∈ es.flatMap Expr.terms,
      Canonical.Normal bounds t ∧ t.isAdd = false ∧ Q t := by
    intro t ht
    obtain ⟨e, he, ht⟩ := List.mem_flatMap.mp ht
    obtain ⟨htnormal, hadd⟩ := (hes e he).of_mem_terms ht
    exact ⟨htnormal, hadd, h e he t ht⟩
  have hrests : ∀ t ∈ (LinearForm.gatherList scale .zero es).terms, Q t.1 := by
    rw [← gatherList_flatMap_terms]
    exact forall_rests_gatherList hQ scale (by simp [zero]) hterms
  intro t ht
  rcases mem_terms_toExpr hnormal ht with rfl | ht
  · exact hQ.constant 0
  · rcases mem_parts.mp ht with ⟨-, rfl⟩ | ⟨s, hs, -, rfl⟩
    · exact hQ.constant _
    · obtain ⟨gs, hshape, -, hrest⟩ := hnormal.rests s hs
      have hone := hrests s hs
      rw [hrest, ← withFactor_one gs] at hone
      rw [hrest, hshape.scale_product]
      exact hQ.term hshape hone s.2

end LinearForm

namespace Canonical

variable {bounds : Bounds}

/-- The sum of normal expressions is normal. -/
theorem normal_add {ts : List Expr} (h : ∀ t ∈ ts, Normal bounds t) : Normal bounds (add ts) :=
  (LinearForm.normal_zero.gatherList 1 ts h).toExpr

/-- Normal terms that differ not only in their coefficients are the terms of their sum. -/
theorem sort_parts {ss ts : List Expr}
    (hts : ∀ t ∈ ts, Normal bounds t ∧ t.isAdd = false ∧ t ≠ .zero) (hascending : Ascending ts)
    (hdistinct : (ts.map fun t => t.splitCoefficient.2).Nodup) (hperm : ss.Perm ts) :
    Expr.sort (LinearForm.gatherList 1 .zero ss).parts = ts := by
  have hnew : (ss.map fun t => t.splitCoefficient.2).Nodup :=
    (hperm.map _).nodup_iff.mpr hdistinct
  have hparts := LinearForm.parts_gatherList LinearForm.normal_zero
    (by simp [LinearForm.zero]) (fun t ht => hts t (hperm.mem_iff.mp ht))
    (by simpa [LinearForm.parts, LinearForm.zero] using hnew)
  exact sort_eq_of_perm ((by simpa [LinearForm.parts, LinearForm.zero] using hparts :
    (LinearForm.gatherList 1 .zero ss).parts.Perm ss).trans hperm) hascending

/-- The terms of a normal sum, in any order, add up to it. -/
theorem add_of_perm {ss ts : List Expr} (hts : ∀ t ∈ ts, Normal bounds t) (h : SumShape ts)
    (hperm : ss.Perm ts) : add ss = .add ts := by
  have hmem : ∀ t ∈ ts, Normal bounds t ∧ t.isAdd = false ∧ t ≠ .zero :=
    fun t ht => ⟨hts t ht, h.not_add t ht, fun heq => h.not_zero (heq ▸ ht)⟩
  rw [add, LinearForm.toExpr_eq, sort_parts hmem h.ascending h.distinct hperm]
  have hlength := h.two_le
  match ts, hlength with
  | _ :: _ :: _, _ => rfl

/-- A normal sum is left as it is. -/
theorem add_of_shape {ts : List Expr} (hts : ∀ t ∈ ts, Normal bounds t) (h : SumShape ts) :
    add ts = .add ts :=
  add_of_perm hts h (.refl ts)

/-- A normal expression is the sum of itself. -/
theorem add_singleton {e : Expr} (h : Normal bounds e) : add [e] = e := by
  cases hadd : e.isAdd with
  | true =>
    cases h with
    | add hts hshape => exact add_of_shape hts hshape
    | _ => cases hadd
  | false =>
    by_cases hzero : e = .zero
    · rw [hzero]
      cbv
    · rw [add, LinearForm.toExpr_eq, sort_parts (by simpa using ⟨h, hadd, hzero⟩)
        (List.pairwise_singleton _ _) (List.nodup_singleton _) (.refl [e])]
      rfl

end Canonical

end ClosedForm
