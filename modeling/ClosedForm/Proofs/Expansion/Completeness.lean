import ClosedForm.Proofs.Expansion.Flat

/-!
# Full expansion

The steps of an expansion keep what it makes flat: the products of terms (`Expand.flat_distributeOver`), the
product of all factors (`Expand.flat_distribute`), powers (`Expand.flat_expandPower`), and with them all nodes,
if no two powers of a sum meet (`Expand.expanding_expandNodes`). The canonicalization that follows keeps
that too, and expansion leaves the result as it is. So nothing is left to multiply out, and expanding again
changes nothing (`Session.expand_complete`).

Where two powers of a sum do meet, they merge to a power that is never multiplied out
(`Session.exists_expand_incomplete`).
-/

namespace ClosedForm

open ClosedForm.Expr Canonical

variable {bounds : Bounds} {F : Func → Prop} {j k : Expr → Nat}

namespace Expand

/-! ## Products of flat sums -/

section Limit

variable (hlimit : 1 ≤ bounds.maxExpandExponent)

include hlimit

/-- Flat terms that are multiplied with the terms of a flat sum. -/
theorem flatTerm_of_mem_products (hk : j + k ≤ 1) {products all : List Expr} {factor : Expr}
    (hproducts : ∀ p ∈ products, FlatTerm bounds F j p) (hfactor : Flat bounds F k factor)
    (h : (products.flatMapM fun p => factor.terms.mapM fun t => multiply bounds [p, t]) = .ok all) :
    ∀ q ∈ all, FlatTerm bounds F (j + k) q := by
  obtain ⟨rows, hrows, rfl⟩ := exists_of_flatMapM h
  intro q hq
  obtain ⟨row, hrow, hq⟩ := List.mem_flatten.mp hq
  obtain ⟨p, hp, hrow⟩ := exists_of_forall₂_right hrows hrow
  obtain ⟨t, ht, hq⟩ := exists_of_forall₂_right (mapM_eq_ok.mp hrow) hq
  have hterm := hproducts p hp
  have hother := hfactor.of_mem_terms ht
  refine flatTerm_multiply hlimit hk ?_ ?_ hq
  · simpa using ⟨hterm.mono (le_self_add.trans hk), hother.mono (le_add_self.trans hk)⟩
  · simpa using add_le_add hterm.standing_le hother.standing_le

/-- One more factor. A single product stays a single one if the factor is no sum. -/
theorem flat_distributeOver (hk : j + k ≤ 1) {products next : List Expr} {factor : Expr}
    (hproducts : ∀ p ∈ products, FlatTerm bounds F j p) (hfactor : Flat bounds F k factor)
    (h : distributeOver bounds products factor = .ok next) :
    (∀ q ∈ next, FlatTerm bounds F (j + k) q) ∧
      (products.length ≤ 1 → factor.isAdd = false → next.length ≤ 1) := by
  obtain ⟨all, hall, h⟩ := bind_eq_ok.mp h
  cases h
  have hterms := flatTerm_of_mem_products hlimit hk hproducts hfactor hall
  refine ⟨fun q hq => (flat_add hk fun t ht => (hterms t ht).toFlat).of_mem_terms hq,
    fun hlength hadd => ?_⟩
  have hcount : all.length ≤ 1 := by
    rwa [length_of_flatMapM_mapM hall, terms_of_not_isAdd hadd, List.length_singleton, mul_one]
  rw [terms_of_not_isAdd (isAdd_add hk hterms hcount)]
  exact le_rfl

/-- All factors, one after the other. -/
theorem flat_foldlM_distributeOver {ks : List (Expr → Nat)} {factors products last : List Expr}
    (hsum : j + ks.sum ≤ 1) (hproducts : ∀ p ∈ products, FlatTerm bounds F j p)
    (hfactors : List.Forall₂ (Flat bounds F) ks factors)
    (h : factors.foldlM (distributeOver bounds) products = .ok last) :
    (∀ q ∈ last, FlatTerm bounds F (j + ks.sum) q) ∧
      (products.length ≤ 1 → (∀ f ∈ factors, f.isAdd = false) → last.length ≤ 1) := by
  induction hfactors generalizing j products with
  | nil =>
    cases h
    exact ⟨by simpa using hproducts, fun hlength _ => hlength⟩
  | @cons k factor ks factors hfirst _ ih =>
    rw [List.sum_cons, ← add_assoc] at hsum ⊢
    rw [List.foldlM_cons] at h
    obtain ⟨next, hnext, h⟩ := bind_eq_ok.mp h
    obtain ⟨hterms, hlengths⟩ :=
      flat_distributeOver hlimit (le_self_add.trans hsum) hproducts hfirst hnext
    obtain ⟨hlast, hshort⟩ := ih hsum hterms h
    exact ⟨hlast, fun hlength hadd =>
      hshort (hlengths hlength (hadd factor (by simp))) fun f hf => hadd f (by simp [hf])⟩

/-- The product of flat sums is flat, and no sum if none of them is one. -/
theorem flat_distribute {ks : List (Expr → Nat)} (hsum : ks.sum ≤ 1) {factors : List Expr} {r : Expr}
    (hfactors : List.Forall₂ (Flat bounds F) ks factors) (h : distribute bounds factors = .ok r) :
    Flat bounds F ks.sum r ∧ ((∀ f ∈ factors, f.isAdd = false) → r.isAdd = false) := by
  obtain ⟨products, hproducts, h⟩ := bind_eq_ok.mp h
  cases h
  have hone : ∀ p ∈ [Expr.one], FlatTerm bounds F 0 p :=
    List.forall_mem_singleton.mpr (flatTerm_constant 1)
  obtain ⟨hterms, hlengths⟩ :=
    flat_foldlM_distributeOver hlimit (by rwa [zero_add]) hone hfactors hproducts
  rw [zero_add] at hterms
  exact ⟨flat_add hsum fun t ht => (hterms t ht).toFlat, fun hadd =>
    isAdd_add hsum hterms (hlengths le_rfl hadd)⟩

/-- Repeated products of a flat sum. -/
theorem flat_multiplyOut {base product r : Expr} (hbase : Flat bounds F 0 base)
    (hproduct : Flat bounds F 0 product) {n : Nat} (h : multiplyOut bounds base n product = .ok r) :
    Flat bounds F 0 r := by
  induction n generalizing product with
  | zero =>
    cases h
    exact hproduct
  | succ n ih =>
    obtain ⟨next, hnext, h⟩ := bind_eq_ok.mp h
    have hpair : List.Forall₂ (Flat bounds F) [0, 0] [product, base] :=
      .cons hproduct (.cons hbase .nil)
    exact ih (flat_distribute hlimit (by simp) hpair hnext).1 h

/-! ## Powers of flat sums -/

omit hlimit in
theorem expandPower_zero (base : Expr) : expandPower bounds base (.constant 0) = .ok .one := by
  unfold expandPower
  show (if _ then _ else power bounds base .zero) = _
  rw [if_neg (by simp), power_zero]

omit hlimit in
/-- An integer power of a sum within the limit is multiplied out, and a negative one inverted then. -/
theorem expandPower_of_isAdd {base : Expr} (hadd : base.isAdd = true) {q : Rat}
    (hint : Rational.isInteger q = true) (hle : q.num.natAbs ≤ bounds.maxExpandExponent) (hzero : q ≠ 0) :
    expandPower bounds base (.constant q) = multiplyOut bounds base (q.num.natAbs - 1) base >>=
      fun expanded => if q < 0 then power bounds expanded (.integer (-1)) else .ok expanded := by
  have hcondition : (Rational.isInteger q && base.isAdd && decide (q ≠ 0) &&
      decide (q.num.natAbs ≤ bounds.maxExpandExponent)) = true := by
    simp [hadd, hint, hle, hzero]
  exact if_pos hcondition

/-- A power of a flat sum, with an exponent that expansion leaves as it is. Only what is not multiplied out
stands. -/
theorem flat_expandPower {base exponent r : Expr} (hbase : Flat bounds F 0 base)
    (hnormal : Normal bounds exponent) (hexponent : exponent.Apart bounds true F)
    (h : expandPower bounds base exponent = .ok r) :
    Flat bounds F 1 r ∧ (exponent.multipliesOut bounds = true → Flat bounds F 0 r) := by
  by_cases hstays : base.isAdd = true → exponent.Stays bounds
  · rw [expandPower_eq_power hstays] at h
    cases hadd : base.isAdd with
    | false =>
      have hr := (flatTerm_power hlimit _ _ h ⟨hbase, hadd⟩ hexponent.flat).toFlat
      exact ⟨hr.mono zero_le_one, fun _ => hr⟩
    | true =>
      refine ⟨(flatTerm_sumPower hlimit hbase hnormal hexponent hstays h).toFlat, fun hopens => ?_⟩
      rw [(hstays hadd).multipliesOut] at hopens
      cases hopens
  · obtain ⟨hadd, q, rfl, hint, hle, -⟩ : base.isAdd = true ∧ ∃ q, exponent = .constant q ∧
        Rational.isInteger q = true ∧ q.num.natAbs ≤ bounds.maxExpandExponent ∧ q ≠ -1 := by
      simpa [Expr.Stays] using hstays
    by_cases hzero : q = 0
    · rw [hzero, expandPower_zero] at h
      cases h
      exact ⟨(flatTerm_constant 1).toFlat, fun _ => (flatTerm_constant 1).toFlat⟩
    rw [expandPower_of_isAdd hadd hint hle hzero] at h
    obtain ⟨expanded, hexpanded, h⟩ := bind_eq_ok.mp h
    have hflat := flat_multiplyOut hlimit hbase hbase hexpanded
    split at h
    · next hneg =>
      -- The denominator alone was multiplied out.
      have hminus : (Expr.integer (-1)).Stays bounds := by
        intro c hc _ _
        cases hc
        norm_num
      refine ⟨(flatTerm_sumPower hlimit hflat (.constant _) (.constant _) (fun _ => hminus) h).toFlat,
        fun hopens => ?_⟩
      simp [multipliesOut, not_le.mpr hneg] at hopens
    · cases h
      exact ⟨hflat.mono zero_le_one, fun _ => hflat⟩

/-- A power of a flat term without standing powers. -/
theorem flatTerm_expandPower {base exponent r : Expr} (hbase : FlatTerm bounds F 0 base)
    (hexponent : Flat bounds F 1 exponent) (h : expandPower bounds base exponent = .ok r) :
    FlatTerm bounds F 0 r := by
  rw [expandPower_eq_power fun hadd => by rw [hbase.not_add] at hadd; cases hadd] at h
  exact flatTerm_power hlimit _ _ h hbase hexponent

/-! ## Nodes -/

/-- An expansion is flat, with no more standing powers of a sum than the expression had, and it is no sum
where the expression had no sums among its factors. -/
structure Expanding (bounds : Bounds) (F : Func → Prop) (e r : Expr) : Prop where
  flat : Flat bounds F (e.standing bounds) r
  not_add : e.sumFree = true → r.isAdd = false

omit hlimit in
theorem Expanding.flatTerm {e r : Expr} (h : Expanding bounds F e r) (hfree : e.sumFree = true) :
    FlatTerm bounds F 0 r := by
  rw [← standing_of_sumFree hfree]
  exact ⟨h.flat, h.not_add hfree⟩

/-- What the power of a flat sum is a power of is one of the sums that it can stand for. -/
theorem standing_le_standsFor {base exponent r : Expr} (hr : Flat bounds F 1 r)
    (h : expandNodes bounds (.pow base exponent) = .ok r) :
    r.standing bounds ≤ standsFor bounds base exponent := by
  unfold standsFor
  split
  · next b hb =>
    obtain ⟨y, hnodes, hpass⟩ := expandedBase?_eq_some hb
    cases hnodes.symm.trans h
    have hterm : FlatTerm bounds F 1 (.pow b y) := ⟨hr, rfl⟩
    rcases hterm.pow_cases with ⟨hplain, -⟩ | ⟨ts, rfl, hstanding⟩
    · rw [standing_pow, hplain.sumFree]
      exact zero_le
    · exact (hstanding.standing_of_normal hlimit (normal_of_pass_empty hpass)).le
  · exact hr.standing_le

theorem Expanding.pow {base exponent b x r : Expr} (hbase : Expanding bounds F base b)
    (hfree : base.sumFree = true) (hexponent : Flat bounds F 1 x) (hr : expandPower bounds b x = .ok r) :
    Expanding bounds F (.pow base exponent) r := by
  have hterm := flatTerm_expandPower hlimit (hbase.flatTerm hfree) hexponent hr
  exact ⟨hterm.toFlat.mono zero_le, fun _ => hterm.not_add⟩

theorem Expanding.sumPow {base exponent b r : Expr} (hbase : Expanding bounds F base b)
    (hnone : base.standing bounds = 0) (hnormal : Normal bounds exponent)
    (hexponent : exponent.Apart bounds true F) (hr : expandPower bounds b exponent = .ok r)
    (hnodes : expandNodes bounds (.pow base exponent) = .ok r) :
    Expanding bounds F (.pow base exponent) r := by
  by_cases hfree : base.sumFree = true
  · exact hbase.pow hlimit hfree hexponent.flat hr
  have hflat := hbase.flat
  rw [hnone] at hflat
  obtain ⟨hone, hzero⟩ := flat_expandPower hlimit hflat hnormal hexponent hr
  refine ⟨?_, fun h => absurd (sumFree_pow base exponent ▸ h) hfree⟩
  rw [standing_pow, Bool.eq_false_iff.mpr hfree, Bool.false_or]
  split
  · next hopens => exact hzero hopens
  · exact ⟨hone.apart, standing_le_standsFor hlimit hone hnodes⟩

omit hlimit in
theorem expandNodes_eq_ok {e r : Expr} (h : expandNodes bounds e = .ok r) :
    ∃ cs, List.Forall₂ (fun c d => expandNodes bounds c = .ok d) e.children cs ∧
      expandNode bounds (e.withChildren cs) = .ok r := by
  rw [expandNodes_eq] at h
  obtain ⟨cs, hcs, h⟩ := bind_eq_ok.mp h
  exact ⟨cs, mapM_eq_ok.mp hcs, h⟩

/-- Expansion makes a flat expression of one whose powers of sums are kept apart. -/
theorem expanding_expandNodes {out : Bool} {e r : Expr} (h : e.Apart bounds out F)
    (hr : expandNodes bounds e = .ok r) : Expanding bounds F e r := by
  have hle := h.standing_le_one
  induction h generalizing r with
  | constant c =>
    obtain ⟨cs, -, hnode⟩ := expandNodes_eq_ok hr
    cases hnode
    exact ⟨(flatTerm_constant c).toFlat, fun _ => rfl⟩
  | symbol name =>
    obtain ⟨cs, -, hnode⟩ := expandNodes_eq_ok hr
    cases hnode
    exact ⟨⟨.symbol name, le_rfl⟩, fun _ => rfl⟩
  | @add _ F ts h hout ih =>
    obtain ⟨cs, hcs, hnode⟩ := expandNodes_eq_ok hr
    cases hnode
    refine ⟨flat_add hle fun d hd => ?_, fun hfree => by cases hfree⟩
    obtain ⟨t, ht, hd⟩ := exists_of_forall₂_right hcs hd
    exact (ih t ht hd (h t ht).standing_le_one).flat.mono (standing_add_le_iff.mp le_rfl t ht)
  | @mul _ F fs h hone hout ih =>
    obtain ⟨cs, hcs, hnode⟩ := expandNodes_eq_ok hr
    have hcs : List.Forall₂ (fun f d => expandNodes bounds f = .ok d) fs cs := hcs
    have hexpanding : List.Forall₂ (Expanding bounds F) fs cs :=
      forall₂_imp_of_mem hcs fun f hf d hd => ih f hf hd (h f hf).standing_le_one
    have hflat : List.Forall₂ (Flat bounds F) (fs.map (standing bounds)) cs := by
      rw [List.forall₂_map_left_iff]
      exact hexpanding.imp fun _ _ h => h.flat
    obtain ⟨hr, hterm⟩ := flat_distribute hlimit hone hflat hnode
    refine ⟨by rwa [standing_mul], fun hfree => hterm fun d hd => ?_⟩
    obtain ⟨f, hf, hd⟩ := exists_of_forall₂_right hexpanding hd
    exact hd.not_add ((sumFree_mul fs).mp hfree f hf)
  | @pow _ F base exponent hbase hfree hexponent ihbase ihexponent =>
    obtain ⟨cs, hcs, hnode⟩ := expandNodes_eq_ok hr
    obtain ⟨b, x, rfl, hb, hx⟩ := exists_of_forall₂_pair hcs
    exact (ihbase hb hbase.standing_le_one).pow hlimit hfree
      ((ihexponent hx hexponent.standing_le_one).flat.mono hexponent.standing_le_one) hnode
  | @sumPow _ F base exponent hbase hnone hnormal hexponent hout ihbase ihexponent =>
    obtain ⟨cs, hcs, hnode⟩ := expandNodes_eq_ok hr
    obtain ⟨b, x, rfl, hb, hx⟩ := exists_of_forall₂_pair hcs
    cases (expandNodes_of_apart hnormal hexponent).symm.trans hx
    exact (ihbase hb hbase.standing_le_one).sumPow hlimit hnone hnormal hexponent hnode hr
  | @function _ F f arguments hf h ih =>
    obtain ⟨cs, hcs, hnode⟩ := expandNodes_eq_ok hr
    cases hnode
    refine ⟨⟨.function hf fun d hd => ?_, le_rfl⟩, fun _ => rfl⟩
    obtain ⟨a, ha, hd⟩ := exists_of_forall₂_right hcs hd
    exact (ih a ha hd (h a ha).standing_le_one).flat.apart

end Limit

end Expand

/-! ## Full expansion -/

/-- No sum is a factor of a product, and no sum is raised to a natural power from `2` to the limit. -/
structure Expr.FullyExpanded (limit : Nat) (e : Expr) : Prop where
  products : ∀ fs, Subexpr (.mul fs) e → ∀ f ∈ fs, f.isAdd = false
  powers : ∀ ts (n : Nat), 2 ≤ n → n ≤ limit → ¬ Subexpr (.pow (.add ts) (.constant n)) e

/-- In a polynomial expression whose powers of sums are within the limit, no power stands. -/
theorem Expr.PowersSatisfy.apart {e : Expr} (h : e.PowersSatisfy fun base n =>
    base.sumFree = false → n ≤ bounds.maxExpandExponent) :
    e.Apart bounds false F ∧ e.standing bounds = 0 := by
  induction h with
  | constant c => exact ⟨.constant c, rfl⟩
  | symbol name => exact ⟨.symbol name, rfl⟩
  | add _ ih =>
    exact ⟨.add (fun t ht => (ih t ht).1) (by simp),
      nonpos_iff_eq_zero.mp (standing_add_le_iff.mpr fun t ht => (ih t ht).2.le)⟩
  | @mul fs _ ih =>
    have hzero : (fs.map (standing bounds)).sum = 0 := by
      refine List.sum_eq_zero fun n hn => ?_
      obtain ⟨f, hf, rfl⟩ := List.mem_map.mp hn
      exact (ih f hf).2
    exact ⟨.mul (fun f hf => (ih f hf).1) (hzero.le.trans zero_le_one) (by simp),
      (standing_mul fs).trans hzero⟩
  | @pow base n hn _ ih =>
    refine ⟨.sumPow ih.1 ih.2 (.constant _) (.constant _) (by simp), ?_⟩
    rw [standing_pow, if_pos]
    cases hfree : base.sumFree with
    | true => rfl
    | false => simp [multipliesOut, Rational.isInteger, hn hfree]

theorem Expr.Apart.of_subexpr {s e : Expr} (h : e.Apart bounds true F) (hs : Subexpr s e) :
    ∃ G, s.Apart bounds true G := by
  induction hs generalizing F with
  | refl => exact ⟨F, h⟩
  | child _ hc ih =>
    obtain ⟨G, hG⟩ := h.of_mem_children hc
    exact ih hG

theorem Expr.Apart.fullyExpanded {e : Expr} (h : e.Apart bounds true F) :
    e.FullyExpanded bounds.maxExpandExponent := by
  refine ⟨fun fs hs => ?_, fun ts n _ hle hs => ?_⟩
  · obtain ⟨G, hG⟩ := h.of_subexpr hs
    exact hG.isAdd_of_mem_mul
  · obtain ⟨G, hG⟩ := h.of_subexpr hs
    rcases hG.pow_cases with ⟨-, hfree, -⟩ | ⟨_, -, -, -, -, -, hstays⟩
    · cases hfree
    · have hminus := hstays n rfl (by simp [Rational.isInteger]) (by simpa using hle)
      have hnonneg : (0 : Rat) ≤ n := Nat.cast_nonneg n
      rw [hminus] at hnonneg
      norm_num at hnonneg

/-- An expansion that ends well makes a normal expression with nothing left to multiply out, if the powers
of sums in the canonical form are kept apart. -/
theorem apart_of_expand (hlimit : 1 ≤ bounds.maxExpandExponent) {memo middle later : Memo}
    (hmemo : memo.Reachable bounds) {e c d : Expr}
    (hcanonical : (canonicalize bounds e).run.run memo = (.ok c, middle)) (hapart : c.Apart bounds false F)
    (hexpand : (expand bounds e).run.run memo = (.ok d, later)) :
    Normal bounds d ∧ d.Apart bounds true F := by
  obtain ⟨_, _, hc, hrest⟩ := run_bind_eq_ok.mp hexpand
  cases hcanonical.symm.trans hc
  obtain ⟨r, next, hr, hd⟩ := run_bind_eq_ok.mp hrest
  rw [run_lift] at hr
  obtain ⟨hnodes, rfl⟩ := Prod.mk.inj hr
  have hmiddle : middle.Reachable bounds := (Recording.canonicalize e).reachable hmemo hcanonical
  have hflat : Flat bounds F 1 r :=
    (Expand.expanding_expandNodes hlimit hapart hnodes).flat.mono hapart.standing_le_one
  have hflattens := flattens_run hlimit hmiddle (congrArg Prod.fst hd)
  exact ⟨normal_of_canonicalize hmiddle hd, hflattens.apart hflat.apart⟩

/-- A normal expression with nothing left to multiply out is its own expansion. -/
theorem expand_of_apart (hpasses : 2 ≤ bounds.maxPasses) {memo : Memo} (hmemo : memo.Reachable bounds)
    {e : Expr} (hnormal : Normal bounds e) (h : e.Apart bounds true F) :
    ((expand bounds e).run.run memo).1 = .ok e := by
  have hcanonical {memo : Memo} (hmemo : memo.Reachable bounds) :
      ∃ later, (canonicalize bounds e).run.run memo = (.ok e, later) ∧ later.Reachable bounds :=
    ⟨_, Prod.ext (hnormal.reduces.canonicalize hpasses hmemo) rfl,
      (Recording.canonicalize e).reachable hmemo rfl⟩
  obtain ⟨middle, hfirst, hmiddle⟩ := hcanonical hmemo
  obtain ⟨later, hsecond, -⟩ := hcanonical hmiddle
  have hnodes : (liftM (Expand.expandNodes bounds e) : Memoizing Expr).run.run middle = (.ok e, middle) := by
    rw [run_lift, Expand.expandNodes_of_apart hnormal h]
  exact congrArg Prod.fst (run_bind_eq_ok.mpr ⟨e, middle, hfirst,
    run_bind_eq_ok.mpr ⟨e, middle, hnodes, hsecond⟩⟩)

namespace Session

/-- In every session with the bounds of the configuration, let the powers of sums in the canonical form of
an expression be kept apart. If the expression expands, then the expansion is full, and it is its own
expansion. -/
theorem expand_complete {session middle later : Session} (hsession : session.Reachable {})
    {handle canonical result : Handle}
    (hcanonical : session.answer (canonicalize handle) = (.ok canonical, middle))
    (hapart : (middle.pool.expr canonical).Apart {} false fun _ => True)
    (hexpand : session.answer (expand handle) = (.ok result, later)) :
    (later.pool.expr result).FullyExpanded ({} : Bounds).maxExpandExponent ∧
      (later.answer (expand result)).1 = .ok result := by
  have h := hsession.consistent
  obtain ⟨c, hc, -, hstands⟩ := (canonicalize_performs h handle).of_answer hcanonical
  obtain ⟨d, hd, hfollows, hresult⟩ := (expand_performs h handle).of_answer hexpand
  rw [hstands.2] at hapart
  obtain ⟨hnormal, hapart'⟩ := apart_of_expand (by decide) h.memo hc hapart hd
  refine ⟨hresult.2 ▸ hapart'.fullyExpanded,
    (expand_performs hfollows.consistent result).answer_eq hfollows.consistent hresult ?_⟩
  rw [hresult.2]
  exact expand_of_apart (by decide) hfollows.consistent.memo hnormal hapart'

/-- In a session that read `(x + 1)^2/((y + 1)*(z + 1))` the expansion has the numerator multiplied out, and
is its own expansion. -/
theorem expand_complete_quotient :
    ∃ (session middle later : Session) (handle canonical result : Handle), session.Reachable {} ∧
      session.answer (canonicalize handle) = (.ok canonical, middle) ∧
      (middle.pool.expr canonical).Apart {} false (fun _ => True) ∧
      session.answer (expand handle) = (.ok result, later) ∧
      (later.pool.expr result).FullyExpanded ({} : Bounds).maxExpandExponent ∧
      (later.answer (expand result)).1 = .ok result := by
  have hread : Formula.read "(x + 1)^2/((y + 1)*(z + 1))" =
      .ok (.mul [.pow (.add [.symbol "x", .constant 1]) (.constant 2),
        .pow (.mul [.add [.symbol "y", .constant 1], .add [.symbol "z", .constant 1]])
          (.constant (-1))]) := by
    cbv
  obtain ⟨session, handle, hsession, hexpr, hmemo⟩ := exists_parsed {} hread
  have hcanonical : ((ClosedForm.canonicalize {} (session.pool.expr handle)).run.run session.memo).1 =
      .ok (.mul [.pow (.add [.constant 1, .symbol "x"]) (.constant 2),
        .pow (.add [.constant 1, .symbol "y"]) (.constant (-1)),
        .pow (.add [.constant 1, .symbol "z"]) (.constant (-1))]) := by
    rw [hexpr, hmemo]
    cbv
  have hexpand : ∃ d, ((ClosedForm.expand {} (session.pool.expr handle)).run.run session.memo).1 = .ok d := by
    rw [hexpr, hmemo]
    exact ⟨_, by cbv⟩
  obtain ⟨canonical, middle, hanswer, hstands⟩ := canonicalize_ok hsession.consistent hcanonical
  obtain ⟨d, hexpand⟩ := hexpand
  obtain ⟨result, later, hexpanded, -, -⟩ := (expand_performs hsession.consistent handle).of_ok hexpand
  have hpower (name : String) (q : Rat) :
      (Expr.pow (.add [.constant 1, .symbol name]) (.constant q)).Apart {} false (fun _ => True) :=
    .sumPow (.add (by simpa using ⟨.constant 1, .symbol name⟩) (by simp)) rfl (.constant q) (.constant q)
      (by simp)
  have hapart : (middle.pool.expr canonical).Apart {} false (fun _ => True) := by
    rw [hstands.2]
    refine .mul (by simpa using ⟨hpower "x" 2, hpower "y" (-1), hpower "z" (-1)⟩) ?_ (by simp)
    have hbase (name : String) (h : expandedBase? {} (.add [.constant 1, .symbol name]) (.constant (-1)) =
        some (.add [.constant 1, .symbol name])) :
        (Expr.pow (.add [.constant 1, .symbol name]) (.constant (-1))).standing {} =
          Pi.single (.add [.constant 1, .symbol name]) 1 := by
      rw [standing_pow, standsFor, h]
      rfl
    have hmultiplied : (Expr.pow (.add [.constant 1, .symbol "x"]) (.constant 2)).standing {} = 0 := by
      rw [standing_pow]
      rfl
    simp only [List.map_cons, List.map_nil, List.sum_cons, List.sum_nil, hmultiplied,
      hbase "y" (by cbv), hbase "z" (by cbv)]
    intro base
    simp only [Pi.add_apply, Pi.zero_apply, Pi.one_apply, Pi.single_apply]
    split
    · next heq => simp [heq]
    · split <;> simp
  exact ⟨session, middle, later, handle, canonical, result, hsession, hanswer, hapart, hexpanded,
    expand_complete hsession hanswer hapart hexpanded⟩

/-- A session that read `sqrt(x + 1)*(y*sqrt(x + 1) + 1)` expands it to `y*(x + 1) + sqrt(x + 1)`, where a sum
is left among the factors, and that again to something else: the two roots of `x + 1` merge to a factor
after the factors have been opened. -/
theorem exists_expand_incomplete :
    ∃ (session later : Session) (handle result : Handle), session.Reachable {} ∧
      session.pool.expr handle = .mul [.pow (.add [.symbol "x", .constant 1]) (.constant (1 / 2)),
        .add [.mul [.symbol "y", .pow (.add [.symbol "x", .constant 1]) (.constant (1 / 2))],
          .constant 1]] ∧
      session.answer (expand handle) = (.ok result, later) ∧
      later.pool.expr result = .add [.pow (.add [.constant 1, .symbol "x"]) (.constant (1 / 2)),
        .mul [.symbol "y", .add [.constant 1, .symbol "x"]]] ∧
      ¬ (later.pool.expr result).FullyExpanded ({} : Bounds).maxExpandExponent ∧
      (later.answer (expand result)).1 ≠ .ok result := by
  have hread : Formula.read "sqrt(x + 1)*(y*sqrt(x + 1) + 1)" =
      .ok (.mul [.pow (.add [.symbol "x", .constant 1]) (.constant (1 / 2)),
        .add [.mul [.symbol "y", .pow (.add [.symbol "x", .constant 1]) (.constant (1 / 2))],
          .constant 1]]) := by
    cbv
  obtain ⟨session, handle, hsession, hexpr, hmemo⟩ := exists_parsed {} hread
  have hexpand : ((ClosedForm.expand {} (session.pool.expr handle)).run.run session.memo).1 =
      .ok (.add [.pow (.add [.constant 1, .symbol "x"]) (.constant (1 / 2)),
        .mul [.symbol "y", .add [.constant 1, .symbol "x"]]]) := by
    rw [hexpr, hmemo]
    cbv
  have hagain : ((ClosedForm.expand {} (session.pool.expr handle) >>= ClosedForm.expand {}).run.run
      session.memo).1 = .ok (.add [.symbol "y", .pow (.add [.constant 1, .symbol "x"]) (.constant (1 / 2)),
        .mul [.symbol "x", .symbol "y"]]) := by
    rw [hexpr, hmemo]
    cbv
  obtain ⟨result, later, hanswer, hfollows, hlater, hstands⟩ :=
    (expand_performs hsession.consistent handle).of_run (Prod.ext hexpand rfl)
  refine ⟨session, later, handle, result, hsession, hexpr, hanswer, hstands.2, fun hfull => ?_,
    fun hfixed => ?_⟩
  · rw [hstands.2] at hfull
    cases hfull.products [.symbol "y", .add [.constant 1, .symbol "x"]]
      (.child (.refl _) (by simp [children])) (.add [.constant 1, .symbol "x"]) (by simp)
  · obtain ⟨d, memo, hfirst, hsecond⟩ := run_bind_eq_ok.mp (Prod.ext hagain rfl)
    cases (Prod.ext hexpand rfl : _ = (_, _)).symm.trans hfirst
    rw [← hlater, ← hstands.2] at hsecond
    obtain ⟨other, last, hother, hlast, hcopy⟩ :=
      (expand_performs hfollows.consistent result).of_ok (congrArg Prod.fst hsecond)
    have hsame : (later.answer (expand result)).1 = .ok other := congrArg Prod.fst hother
    obtain rfl : result = other := Except.ok.inj (hfixed.symm.trans hsame)
    have hkept := hstands.mono hfollows.consistent.pool hlast.consistent.pool hlast.pool
    cases hkept.2.symm.trans hcopy.2

end Session

end ClosedForm
