import ClosedForm.Proofs.Normal.Sums

/-!
# Products of normal factors

Opened to factors that are no products, some expressions collect (`Collects`) to a coefficient, the product of
the constants among them, and to the other factors in any order. Where these are a term (`IsTerm`), a
coefficient and normal factors with distinct bases, the rule for products makes it
(`IsTerm.multiply`). So normal products are left as they are (`multiply_of_shape`), and a
coefficient in front of a normal term is multiplied into its own (`multiply_term`).

Normal factors with distinct bases are assembled to something normal also where a coefficient is
distributed over a sum (`normal_assemble`). Normal powers are left as they are (`power_of_shape`).
-/

namespace ClosedForm

open ClosedForm.Expr Canonical

theorem PowerProduct.addPower_of_not_mem {base exponent : Expr} {powers : List (Expr × List Expr)}
    (h : base ∉ powers.map Prod.fst) :
    addPower base exponent powers = powers ++ [(base, [exponent])] := by
  induction powers with
  | nil => rfl
  | cons p rest ih =>
    simp only [List.map_cons, List.mem_cons, not_or] at h
    rw [addPower, if_neg (Ne.symm h.1), ih h.2, List.cons_append]

namespace Canonical

variable {bounds : Bounds}

/-! ## Assembling -/

theorem sort_withFactor {gs : List Expr} (hconstant : ∀ g ∈ gs, g.isConstant = false)
    (h : Ascending gs) (c : Rat) :
    Expr.sort (if c = 1 then gs else gs ++ [.constant c]) = withFactor c gs := by
  unfold withFactor
  split
  · exact h.sort_eq
  · refine sort_eq_of_perm (List.perm_append_singleton _ _) (List.pairwise_cons.mpr ⟨?_, h⟩)
    exact fun g hg => constant_le (hconstant g hg)

theorem product_withFactor_nil (c : Rat) : Expr.product (withFactor c []) = .constant c := by
  by_cases hone : c = 1
  · rw [hone]
    rfl
  · rw [withFactor_of_ne hone]
    rfl

theorem assemble_nil {c : Rat} (hc : c ≠ 0) : assemble c [] = Expr.product (withFactor c []) := by
  rw [product_withFactor_nil, assemble, if_neg hc]

theorem assemble_cons_cons (c : Rat) (f g : Expr) (fs : List Expr) :
    assemble c (f :: g :: fs) = if c = 0 then .zero else
      Expr.product (Expr.sort (if c = 1 then f :: g :: fs else f :: g :: fs ++ [.constant c])) := by
  cases f <;> rfl

/-- Assembling does not depend on the order of the factors. -/
theorem assemble_congr {c : Rat} {gs hs : List Expr} (h : gs.Perm hs) :
    assemble c gs = assemble c hs := by
  match gs, hs, h with
  | [], hs, h => rw [List.nil_perm.mp h]
  | [g], hs, h => rw [List.singleton_perm.mp h]
  | a :: b :: gs, [], h => exact absurd h.length_eq (by simp)
  | a :: b :: gs, [_], h => exact absurd h.length_eq (by simp)
  | a :: b :: gs, a' :: b' :: hs, h =>
    have hsort : Expr.sort (if c = 1 then a :: b :: gs else a :: b :: gs ++ [.constant c]) =
        Expr.sort (if c = 1 then a' :: b' :: hs else a' :: b' :: hs ++ [.constant c]) := by
      split
      · exact sort_congr h
      · exact sort_congr (h.append_right _)
    rw [assemble_cons_cons, assemble_cons_cons, hsort]

/-- Factors that are no constants are put behind the coefficient, unless they are a single sum. -/
theorem assemble_of_not_constant {qs : List Expr} (hconstant : ∀ q ∈ qs, q.isConstant = false)
    (hsum : ∀ ts, qs ≠ [.add ts]) {c : Rat} (hc : c ≠ 0) :
    assemble c qs = Expr.product (withFactor c (Expr.sort qs)) := by
  have hsorted : ∀ q ∈ Expr.sort qs, q.isConstant = false := fun q hq => hconstant q (mem_sort.mp hq)
  have hnot : ∀ ts, Expr.sort qs ≠ [.add ts] :=
    fun ts heq => hsum ts (List.singleton_perm.mp (heq ▸ sort_perm qs)).symm
  have hascending := ascending_sort qs
  rw [assemble_congr (sort_perm qs).symm]
  generalize Expr.sort qs = gs at *
  unfold assemble
  rw [if_neg hc]
  split
  · exact (product_withFactor_nil c).symm
  · next ts => exact absurd rfl (hnot ts)
  · rw [sort_withFactor hsorted hascending]

theorem assemble_of_shape {c : Rat} {gs : List Expr} (hc : c ≠ 0) (h : FactorShape gs) :
    assemble c gs = Expr.product (withFactor c gs) := by
  rw [assemble_of_not_constant h.not_constant h.not_sum hc, h.ascending.sort_eq]

/-- Factors with distinct bases, put in order. -/
theorem factorShape_sort {ps : List Expr} (hnil : ps ≠ [])
    (hconstant : ∀ p ∈ ps, p.isConstant = false) (hmul : ∀ p ∈ ps, p.isMul = false)
    (hbases : (ps.map factorBase).Nodup) (hsum : ∀ ts, ps ≠ [.add ts]) :
    FactorShape (Expr.sort ps) where
  ne_nil heq := hnil (List.nil_perm.mp (heq ▸ sort_perm ps))
  not_constant g hg := hconstant g (mem_sort.mp hg)
  not_mul g hg := hmul g (mem_sort.mp hg)
  ascending := ascending_sort ps
  bases := ((sort_perm ps).map _).nodup_iff.mpr hbases
  not_sum ts heq := hsum ts (List.singleton_perm.mp (heq ▸ sort_perm ps)).symm

/-- Normal factors with distinct bases are assembled to a normal product. -/
theorem normal_assemble {ps : List Expr} (c : Rat) (hps : ∀ p ∈ ps, Normal bounds p)
    (hconstant : ∀ p ∈ ps, p.isConstant = false) (hmul : ∀ p ∈ ps, p.isMul = false)
    (hbases : (ps.map factorBase).Nodup) : Normal bounds (assemble c ps) := by
  by_cases hc : c = 0
  · unfold assemble
    rw [if_pos hc]
    exact .constant 0
  by_cases hnil : ps = []
  · unfold assemble
    rw [if_neg hc, hnil]
    exact .constant c
  by_cases hsum : ∃ ts, ps = [.add ts]
  · obtain ⟨ts, rfl⟩ := hsum
    have hadd := hps (.add ts) (by simp)
    unfold assemble
    rw [if_neg hc]
    dsimp only
    split
    · exact hadd
    · exact (LinearForm.normal_zero.gatherList c ts fun t ht => hadd.of_mem_children ht).toExpr
  · have hshape := factorShape_sort hnil hconstant hmul hbases (not_exists.mp hsum)
    rw [assemble_of_not_constant hconstant (not_exists.mp hsum) hc]
    exact hshape.normal_term hc fun g hg => hps g (mem_sort.mp hg)

/-! ## Normal powers are left as they are -/

theorem powerStep_of_inert {P : Expr → Expr → Except Error Expr} {base exponent : Expr}
    (h : Inert base exponent) : powerStep bounds P base exponent = .ok (.pow base exponent) := by
  have houtcome : PowerOutcome bounds P base exponent (powerStep bounds P base exponent) :=
    powerStep_outcome base exponent
  generalize powerStep bounds P base exponent = result at houtcome
  cases houtcome with
  | one hone => exact (hone.elim h.exponent_ne_zero h.base_ne_one).elim
  | base => exact absurd rfl h.exponent_ne_one
  | constants => exact absurd (h.not_constants rfl) (by simp)
  | nested hn => exact absurd trivial (h.not_opens _ rfl hn)
  | spread hn => exact absurd trivial (h.not_opens _ rfl hn)
  | imaginary hn => exact absurd trivial (h.not_opens _ rfl hn)
  | inert => rfl

theorem power_of_shape {base exponent : Expr} (h : PowerShape bounds base exponent) :
    power bounds base exponent = .ok (.pow base exponent) := by
  rw [power_eq]
  cases h with
  | inert h => exact powerStep_of_inert h
  | @kept b q hb hzero hone h =>
    unfold powerStep
    rw [if_neg (by simp [isZero, isOne, hzero, hb]), if_neg (by simp [isOne, hone])]
    exact h.constantPower

/-- A normal factor is the power of its base. -/
theorem power_factor {g : Expr} (h : Normal bounds g) :
    power bounds (factorBase g) (factorExponent g) = .ok g := by
  cases h with
  | pow _ _ h => exact power_of_shape h
  | _ => exact power_one _

theorem mapM_power_factor {gs : List Expr} (hgs : ∀ g ∈ gs, Normal bounds g) :
    ((gs.map fun g => (factorBase g, [factorExponent g])).mapM fun p =>
      power bounds p.1 (addExponents p.2)) = .ok gs := by
  rw [mapM_eq_ok, List.forall₂_map_left_iff, List.forall₂_same]
  exact fun g hg => power_factor (hgs g hg)

/-! ## Collecting factors -/

theorem constantPart_append (es fs : List Expr) :
    constantPart (es ++ fs) = constantPart es * constantPart fs := by
  simp [constantPart_eq]

theorem constantPart_eq_one {gs : List Expr} (h : ∀ g ∈ gs, g.isConstant = false) :
    constantPart gs = 1 := by
  rw [constantPart_eq]
  refine List.prod_eq_one fun c hc => ?_
  obtain ⟨g, hg, rfl⟩ := List.mem_map.mp hc
  have hnone := h g hg
  cases g <;> first | rfl | cases hnone

/-- The factors that are no constants. -/
def proper (fs : List Expr) : List Expr :=
  fs.filter fun e => e.constant?.isNone

theorem proper_of_not_constant {gs : List Expr} (h : ∀ g ∈ gs, g.isConstant = false) :
    proper gs = gs := by
  rw [proper, List.filter_eq_self]
  intro g hg
  simpa [isConstant] using h g hg

/-- The expressions, opened to factors, have the coefficient and the proper factors. -/
structure Collects (fs : List Expr) (c : Rat) (gs : List Expr) : Prop where
  coefficient : constantPart (factorsList fs) = c
  factors : (proper (factorsList fs)).Perm gs

theorem Collects.append {es fs : List Expr} {c d : Rat} {gs hs : List Expr}
    (h : Collects es c gs) (h' : Collects fs d hs) : Collects (es ++ fs) (c * d) (gs ++ hs) where
  coefficient := by
    rw [factorsList_append, constantPart_append, h.coefficient, h'.coefficient]
  factors := by
    rw [factorsList_append, proper, List.filter_append]
    exact h.factors.append h'.factors

theorem Collects.perm {fs : List Expr} {c : Rat} {gs hs : List Expr} (h : Collects fs c gs)
    (hperm : gs.Perm hs) : Collects fs c hs :=
  ⟨h.coefficient, h.factors.trans hperm⟩

theorem collects_constant (c : Rat) : Collects [.constant c] c [] where
  coefficient := by simp [factorsList, Expr.factors, constantPart]
  factors := List.Perm.refl _

theorem collects_of_not_mul {gs : List Expr} (hconstant : ∀ g ∈ gs, g.isConstant = false)
    (hmul : ∀ g ∈ gs, g.isMul = false) : Collects gs 1 gs where
  coefficient := by rw [factorsList_of_not_isMul hmul, constantPart_eq_one hconstant]
  factors := by rw [factorsList_of_not_isMul hmul, proper_of_not_constant hconstant]

theorem collects_withFactor {gs : List Expr} (hconstant : ∀ g ∈ gs, g.isConstant = false)
    (hmul : ∀ g ∈ gs, g.isMul = false) (c : Rat) : Collects (withFactor c gs) c gs := by
  have hgs := collects_of_not_mul hconstant hmul
  by_cases hc : c = 1
  · rwa [hc, withFactor_one]
  · rw [withFactor_of_ne hc]
    simpa using (collects_constant c).append hgs

theorem withFactor_ne_nil {gs : List Expr} (h : FactorShape gs) (c : Rat) :
    withFactor c gs ≠ [] := by
  unfold withFactor
  split
  · exact h.ne_nil
  · simp

/-- A term is opened to its coefficient and its factors. -/
theorem collects_term {gs : List Expr} (h : FactorShape gs) (c : Rat) :
    Collects [Expr.product (withFactor c gs)] c gs := by
  have hfactors : factorsList [Expr.product (withFactor c gs)] = factorsList (withFactor c gs) := by
    rw [factorsList, factors_product _ (withFactor_ne_nil h c), factorsList, List.append_nil]
  have hcollects := collects_withFactor h.not_constant h.not_mul c
  exact ⟨hfactors ▸ hcollects.coefficient, hfactors ▸ hcollects.factors⟩

/-- Factors with new and distinct bases are collected one by one. -/
theorem foldl_addFactor_of_nodup {fs : List Expr} {product : PowerProduct}
    (h : (product.powers.map Prod.fst ++ (proper fs).map factorBase).Nodup) :
    fs.foldl PowerProduct.addFactor product = ⟨product.coefficient * constantPart fs,
      product.powers ++ (proper fs).map fun g => (factorBase g, [factorExponent g])⟩ := by
  induction fs generalizing product with
  | nil => simp [constantPart, proper]
  | cons f fs ih =>
    have hpart : constantPart (f :: fs) = constantPart [f] * constantPart fs :=
      constantPart_append [f] fs
    rw [List.foldl_cons, hpart]
    cases hconstant : f.isConstant with
    | true =>
      obtain ⟨c, rfl⟩ := isConstant_iff.mp hconstant
      have hproper : proper (.constant c :: fs) = proper fs := rfl
      rw [hproper] at h ⊢
      have hrest := @ih ⟨product.coefficient * c, product.powers⟩ h
      rw [PowerProduct.addFactor_constant, hrest]
      simp [constantPart, mul_assoc]
    | false =>
      have hproper : proper (f :: fs) = f :: proper fs :=
        List.filter_cons_of_pos (by simpa [isConstant] using hconstant)
      rw [hproper] at h ⊢
      have hnew : factorBase f ∉ product.powers.map Prod.fst :=
        fun hmem => (List.nodup_append.mp h).2.2 _ hmem _ (by simp) rfl
      have hone : constantPart [f] = 1 := constantPart_eq_one (by simpa using hconstant)
      rw [PowerProduct.addFactor_of_not_isConstant product hconstant,
        PowerProduct.addPower_of_not_mem hnew, ih (by simpa using h), hone]
      simp

/-- Normal factors with distinct bases are assembled as they are. -/
theorem multiply_of_distinct {fs : List Expr} {c : Rat} (hc : c ≠ 0)
    (hcoefficient : constantPart (factorsList fs) = c)
    (hnormal : ∀ g ∈ proper (factorsList fs), Normal bounds g)
    (hnodup : ((proper (factorsList fs)).map factorBase).Nodup) :
    multiply bounds fs = .ok (assemble c (proper (factorsList fs))) := by
  have hconstant : ∀ g ∈ proper (factorsList fs), g.isConstant = false := by
    intro g hg
    simpa [isConstant] using (List.mem_filter.mp hg).2
  have hparts : PowerProduct.ofFactors fs = ⟨c, (proper (factorsList fs)).map fun g =>
      (factorBase g, [factorExponent g])⟩ := by
    rw [PowerProduct.ofFactors,
      foldl_addFactor_of_nodup (by simpa [PowerProduct.one] using hnodup), hcoefficient]
    simp [PowerProduct.one]
  rw [multiply_eq]
  unfold multiplyWith
  dsimp only
  rw [hparts, if_neg hc]
  dsimp only
  rw [mapM_power_factor hnormal]
  show Except.ok (assemble (c * constantPart (proper (factorsList fs)))
    (proper (proper (factorsList fs)))) = _
  rw [constantPart_eq_one hconstant, proper_of_not_constant hconstant, mul_one]

/-- A coefficient other than zero and normal factors, of which there may be none. -/
structure IsTerm (bounds : Bounds) (c : Rat) (gs : List Expr) : Prop where
  ne_zero : c ≠ 0
  factors : ∀ g ∈ gs, Normal bounds g
  shape : gs = [] ∨ FactorShape gs

namespace IsTerm

variable {c : Rat} {gs : List Expr}

theorem of_ne {d : Rat} (h : IsTerm bounds c gs) (hd : d ≠ 0) : IsTerm bounds d gs :=
  ⟨hd, h.factors, h.shape⟩

theorem constant (hc : c ≠ 0) : IsTerm bounds c [] :=
  ⟨hc, by simp, .inl rfl⟩

theorem normal (h : IsTerm bounds c gs) : Normal bounds (Expr.product (withFactor c gs)) := by
  rcases h.shape with rfl | hshape
  · rw [product_withFactor_nil]
    exact .constant c
  · exact hshape.normal_term h.ne_zero h.factors

theorem collects (h : IsTerm bounds c gs) : Collects [Expr.product (withFactor c gs)] c gs := by
  rcases h.shape with rfl | hshape
  · rw [product_withFactor_nil]
    exact collects_constant c
  · exact collects_term hshape c

/-- Factors that collect to a term multiply to it. -/
theorem multiply (h : IsTerm bounds c gs) {fs : List Expr} (hfs : Collects fs c gs) :
    multiply bounds fs = .ok (Expr.product (withFactor c gs)) := by
  have hnodup : (gs.map factorBase).Nodup := by
    rcases h.shape with rfl | hshape
    · exact List.nodup_nil
    · exact hshape.bases
  have hassemble : assemble c gs = Expr.product (withFactor c gs) := by
    rcases h.shape with rfl | hshape
    · exact assemble_nil h.ne_zero
    · exact assemble_of_shape h.ne_zero hshape
  rw [multiply_of_distinct h.ne_zero hfs.coefficient
    (fun g hg => h.factors g (hfs.factors.mem_iff.mp hg))
    ((hfs.factors.map factorBase).nodup_iff.mpr hnodup), assemble_congr hfs.factors, hassemble]

/-- A normal expression that collects to a term is this term. -/
theorem eq_of_collects (h : IsTerm bounds c gs) {e : Expr} (he : Normal bounds e)
    (hcollects : Collects [e] c gs) : e = Expr.product (withFactor c gs) := by
  cases hconstant : e.isConstant with
  | true =>
    obtain ⟨d, rfl⟩ := isConstant_iff.mp hconstant
    obtain rfl : d = c := (collects_constant d).coefficient.symm.trans hcollects.coefficient
    obtain rfl : gs = [] := List.nil_perm.mp hcollects.factors
    rw [product_withFactor_nil]
  | false =>
    cases hadd : e.isAdd with
    | true =>
      cases e with
      | add ts =>
        have hgs : gs = [.add ts] := (List.singleton_perm.mp hcollects.factors).symm
        rcases h.shape with rfl | hshape
        · cases hgs
        · exact absurd hgs (hshape.not_sum ts)
      | _ => cases hadd
    | false =>
      obtain ⟨d, hs, -, hterm, -, rfl⟩ := he.exists_term hconstant hadd
      have hown := collects_term hterm d
      obtain rfl : d = c := hown.coefficient.symm.trans hcollects.coefficient
      have hperm : hs.Perm gs := hown.factors.symm.trans hcollects.factors
      rcases h.shape with rfl | hshape
      · exact absurd (List.perm_nil.mp hperm) hterm.ne_nil
      · rw [hterm.ascending.eq_of_perm hshape.ascending hperm]

/-- Multiplying by `-1` changes the sign of the coefficient. -/
theorem multiply_neg_one (h : IsTerm bounds c gs) :
    Canonical.multiply bounds [.integer (-1), Expr.product (withFactor c gs)] =
      .ok (Expr.product (withFactor (-c) gs)) := by
  refine (h.of_ne (neg_ne_zero.mpr h.ne_zero)).multiply ?_
  have hminus : ((-1 : Int) : Rat) * c = -c := by
    rw [Int.cast_neg, Int.cast_one, neg_one_mul]
  rw [← hminus]
  exact (collects_constant _).append h.collects

end IsTerm

/-- A normal expression is the product of itself. -/
theorem multiply_singleton {e : Expr} (h : Normal bounds e) : multiply bounds [e] = .ok e := by
  cases hconstant : e.isConstant with
  | true =>
    obtain ⟨c, rfl⟩ := isConstant_iff.mp hconstant
    have hproduct : multiply bounds [Expr.constant c] = _ := multiply_all_constants [c]
    simpa using hproduct
  | false =>
    cases hadd : e.isAdd with
    | true =>
      cases e with
      | add ts =>
        refine (multiply_of_distinct one_ne_zero rfl ?_ ?_).trans (congrArg Except.ok (if_neg one_ne_zero))
        · simpa [proper, factorsList, Expr.factors, constant?] using h
        · simp [proper, factorsList, Expr.factors, constant?]
      | _ => cases hadd
    | false =>
      obtain ⟨c, gs, hc, hshape, hgs, rfl⟩ := h.exists_term hconstant hadd
      exact IsTerm.multiply ⟨hc, hgs, .inr hshape⟩ (collects_term hshape c)

/-- A normal product is left as it is. -/
theorem multiply_of_shape {c : Rat} {gs : List Expr} (hc : c ≠ 0)
    (hgs : ∀ g ∈ gs, Normal bounds g) (h : FactorShape gs) :
    multiply bounds (withFactor c gs) = .ok (Expr.product (withFactor c gs)) :=
  IsTerm.multiply ⟨hc, hgs, .inr h⟩ (collects_withFactor h.not_constant h.not_mul c)

/-- A constant is multiplied into the coefficient of a term. -/
theorem multiply_term {c d : Rat} {gs : List Expr} (hc : c ≠ 0) (hd : d ≠ 0)
    (hgs : ∀ g ∈ gs, Normal bounds g) (h : FactorShape gs) :
    multiply bounds [.constant d, Expr.product (withFactor c gs)] =
      .ok (Expr.product (withFactor (d * c) gs)) :=
  IsTerm.multiply ⟨mul_ne_zero hd hc, hgs, .inr h⟩
    ((collects_constant d).append (collects_term h c))

/-- Multiplying by `-1` changes the coefficient of anything but a sum, also among other factors. -/
theorem exists_negative {e : Expr} (he : Normal bounds e) (hadd : e.isAdd = false) :
    ∃ d, multiply bounds [.integer (-1), e] = .ok d ∧ Normal bounds d ∧ d.isAdd = false ∧
      ∀ fs c gs, Collects (e :: fs) c gs → Collects (d :: fs) (-c) gs := by
  have hminus : ((-1 : Int) : Rat) = -1 := by norm_num
  have hone : ((-1 : Int) : Rat) ≠ 0 := by norm_num
  -- Enough that the coefficient and the factors of the expression alone are known.
  have hfirst {d : Expr} {k : Rat} {hs : List Expr} (h : Collects [e] k hs)
      (h' : Collects [d] (-k) hs) (fs : List Expr) (c : Rat) (gs : List Expr)
      (hfs : Collects (e :: fs) c gs) : Collects (d :: fs) (-c) gs := by
    have hrest : Collects fs (constantPart (factorsList fs)) (proper (factorsList fs)) :=
      ⟨rfl, List.Perm.refl _⟩
    have hall := h.append hrest
    have hall' := h'.append hrest
    obtain rfl := hall.coefficient.symm.trans hfs.coefficient
    rw [← neg_mul]
    exact hall'.perm (hall.factors.symm.trans hfs.factors)
  cases hconstant : e.isConstant with
  | true =>
    obtain ⟨c, rfl⟩ := isConstant_iff.mp hconstant
    refine ⟨_, multiply_constants c (-1 : Int), .constant _, rfl, ?_⟩
    rw [hminus, neg_one_mul]
    exact hfirst (collects_constant c) (collects_constant (-c))
  | false =>
    obtain ⟨c, gs, hc, hshape, hgs, rfl⟩ := he.exists_term hconstant hadd
    refine ⟨_, multiply_term hc hone hgs hshape, hshape.normal_term (mul_ne_zero hone hc) hgs,
      hshape.isAdd_term, ?_⟩
    rw [hminus, neg_one_mul]
    exact hfirst (collects_term hshape c) (collects_term hshape (-c))

end Canonical

end ClosedForm
