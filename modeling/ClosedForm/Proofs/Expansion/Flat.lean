import ClosedForm.Proofs.Closure
import ClosedForm.Proofs.History
import ClosedForm.Proofs.Expansion.Fixed

/-!
# The rules keep flat expressions flat

A sum of flat sums is flat (`flat_add`). A product of flat terms is a flat term if not more than one power of
each sum is multiplied (`flatTerm_multiply`): such a power meets no other power of its base, so its exponent is
left as it is. Powers of terms without standing powers are such terms again (`flatTerm_power`), and so are
functions (`flatTerm_apply`).

So a pass makes a flat expression of a flat one, and no further power of a sum stands in it
(`flattens_run`).
-/

namespace ClosedForm

open ClosedForm.Expr Canonical

variable {bounds : Bounds} {F : Func → Prop} {k : Expr → Nat}

/-! ## Sums -/

section Terms

variable (hk : k ≤ 1)

include hk

theorem FlatTerm.splitCoefficient {e : Expr} (h : FlatTerm bounds F k e) :
    FlatTerm bounds F k e.splitCoefficient.2 := by
  unfold Expr.splitCoefficient
  split
  · exact flatTerm_constant 1
  · next c factors =>
    obtain ⟨hfactors, hsum⟩ := h.toFlat.of_mul
    exact flatTerm_product hk (fun f hf => hfactors f (by simp [hf])) (by simpa using hsum)
  · exact h

theorem FlatTerm.scale {e : Expr} (h : FlatTerm bounds F k e) (c : Rat) :
    FlatTerm bounds F k (e.scale c) := by
  unfold Expr.scale
  split
  · exact h
  · split
    · obtain ⟨hfactors, hsum⟩ := h.toFlat.of_mul
      exact flatTerm_product hk (List.forall_mem_cons.mpr ⟨flatTerm_constant c, hfactors⟩)
        (by simpa using hsum)
    · exact flatTerm_product hk (by simpa using ⟨flatTerm_constant c, h.mono hk⟩)
        (by simpa using h.standing_le)

theorem flat_gatherList (scale : Rat) {form : LinearForm}
    (hform : ∀ t ∈ form.terms, FlatTerm bounds F k t.1) (es : List Expr)
    (hes : ∀ e ∈ es, Flat bounds F k e) :
    ∀ t ∈ (LinearForm.gatherList scale form es).terms, FlatTerm bounds F k t.1 :=
  LinearForm.Gathers.gatherList (.of_rests (fun he t ht => (he.of_add t ht).toFlat)
    (fun {c ts} he => by cases (he.of_mul.1 (.add ts) (by simp)).not_add)
    fun he _ hadd => FlatTerm.splitCoefficient hk ⟨he, hadd⟩) scale hform es hes

theorem flatTerm_of_mem_parts {form : LinearForm} (hform : ∀ t ∈ form.terms, FlatTerm bounds F k t.1)
    {e : Expr} (he : e ∈ form.parts) : FlatTerm bounds F k e := by
  rcases LinearForm.mem_parts.mp he with ⟨-, rfl⟩ | ⟨t, ht, -, rfl⟩
  · exact flatTerm_constant _
  · exact (hform t ht).scale hk t.2

theorem flat_toExpr {form : LinearForm} (hform : ∀ t ∈ form.terms, FlatTerm bounds F k t.1) :
    Flat bounds F k form.toExpr := by
  rw [LinearForm.toExpr_eq]
  exact flat_sum fun e he => flatTerm_of_mem_parts hk hform (mem_sort.mp he)

theorem flatTerm_of_mem_gathered (scale : Rat) {es : List Expr} (hes : ∀ e ∈ es, Flat bounds F k e) :
    ∀ t ∈ (LinearForm.gatherList scale .zero es).terms, FlatTerm bounds F k t.1 :=
  flat_gatherList hk scale (by simp [LinearForm.zero]) es hes

theorem flat_gathered (scale : Rat) {es : List Expr} (hes : ∀ e ∈ es, Flat bounds F k e) :
    Flat bounds F k (LinearForm.gatherList scale .zero es).toExpr :=
  flat_toExpr hk (flatTerm_of_mem_gathered hk scale hes)

/-- A sum of flat sums is flat. -/
theorem flat_add {ts : List Expr} (hts : ∀ t ∈ ts, Flat bounds F k t) :
    Flat bounds F k (Canonical.add ts) :=
  flat_gathered hk 1 hts

omit hk in
theorem length_parts_le (form : LinearForm) :
    form.parts.length ≤ (if form.constant = 0 then 0 else 1) + form.terms.length := by
  unfold LinearForm.parts
  rw [List.length_append]
  refine Nat.add_le_add ?_ (List.length_filterMap_le _ _)
  split <;> rfl

/-- Fewer than two flat terms do not add up to a sum. -/
theorem isAdd_add {ts : List Expr} (hts : ∀ t ∈ ts, FlatTerm bounds F k t) (hlength : ts.length ≤ 1) :
    (Canonical.add ts).isAdd = false := by
  have hparts : (LinearForm.gatherList 1 .zero ts).parts.length ≤ 1 := by
    refine (length_parts_le _).trans ?_
    rcases ts with _ | ⟨t, _ | _⟩
    · exact Nat.zero_le 1
    · have ht := hts t (by simp)
      rw [LinearForm.gatherList, LinearForm.gatherList]
      unfold LinearForm.gather
      split
      · split
        · exact Nat.zero_le 1
        · exact le_rfl
      · cases ht.not_add
      · next _ terms => cases (ht.toFlat.of_mul.1 (.add terms) (by simp)).not_add
      · exact le_rfl
    · simp at hlength
  have hterms := flatTerm_of_mem_gathered hk 1 fun t ht => (hts t ht).toFlat
  show (Expr.sum (Expr.sort (LinearForm.gatherList 1 .zero ts).parts)).isAdd = false
  rcases hsorted : Expr.sort (LinearForm.gatherList 1 .zero ts).parts with _ | ⟨e, _ | ⟨f, rest⟩⟩
  · rfl
  · have he : e ∈ Expr.sort (LinearForm.gatherList 1 .zero ts).parts := by simp [hsorted]
    exact (flatTerm_of_mem_parts hk hterms (mem_sort.mp he)).not_add
  · rw [← (sort_perm _).length_eq, hsorted] at hparts
    simp at hparts

/-! ## Products -/

theorem flatTerm_assemble (c : Rat) {powers : List Expr} (h : ∀ q ∈ powers, FlatTerm bounds F 1 q)
    (hsum : (powers.map (standing bounds)).sum ≤ k) : FlatTerm bounds F k (assemble c powers) := by
  unfold assemble
  split
  · exact flatTerm_constant 0
  · split
    · exact flatTerm_constant c
    · next terms => cases (h (.add terms) (by simp)).not_add
    · have hsorted (fs : List Expr) :
          ((Expr.sort fs).map (standing bounds)).sum = (fs.map (standing bounds)).sum :=
        ((sort_perm fs).map _).sum_eq
      refine flatTerm_product hk (fun f hf => ?_) ?_
      · rw [mem_sort] at hf
        split at hf
        · exact h f hf
        · rcases List.mem_append.mp hf with hf | hf
          · exact h f hf
          · rw [List.mem_singleton.mp hf]
            exact flatTerm_constant c
      · rw [hsorted]
        split
        · exact hsum
        · simpa using hsum

end Terms

namespace PowerProduct

/-- The numbers of the standing powers that have been collected. -/
def standing (bounds : Bounds) (powers : List (Expr × List Expr)) : Expr → Nat :=
  (powers.map fun p => (p.2.map fun x => (Expr.pow p.1 x).standing bounds).sum).sum

theorem standing_addPower (base exponent : Expr) (powers : List (Expr × List Expr)) :
    standing bounds (addPower base exponent powers) =
      standing bounds powers + (Expr.pow base exponent).standing bounds := by
  induction powers with
  | nil => simp [standing, addPower]
  | cons p rest ih =>
    rw [addPower]
    split
    · next heq =>
      simp only [standing, List.map_cons, List.sum_cons, List.map_append, List.sum_append, List.map_nil,
        List.sum_nil, heq]
      abel
    · simp only [standing, List.map_cons, List.sum_cons] at ih ⊢
      rw [ih, add_assoc]

theorem standing_foldl {fs : List Expr} {product : PowerProduct}
    (hmul : ∀ f ∈ fs, f.isMul = false) (hadd : ∀ f ∈ fs, f.isAdd = false) :
    standing bounds (fs.foldl addFactor product).powers =
      standing bounds product.powers + (fs.map (Expr.standing bounds)).sum := by
  induction fs generalizing product with
  | nil => simp
  | cons f fs ih =>
    have hfirst : standing bounds (product.addFactor f).powers =
        standing bounds product.powers + f.standing bounds := by
      have hplain (hfree : f.sumFree = true) :
          standing bounds (addPower f .one product.powers) =
            standing bounds product.powers + f.standing bounds := by
        rw [standing_addPower, standing_pow, hfree, standing_of_sumFree hfree]
        rfl
      cases f with
      | constant => rfl
      | pow base exponent => exact standing_addPower base exponent product.powers
      | symbol | function => exact hplain rfl
      | add ts => cases hadd (.add ts) (by simp)
      | mul gs => cases hmul (.mul gs) (by simp)
    rw [List.foldl_cons, ih (fun g hg => hmul g (by simp [hg])) (fun g hg => hadd g (by simp [hg])), hfirst,
      List.map_cons, List.sum_cons, add_assoc]

theorem standing_ofFactors {fs : List Expr} (hadd : ∀ f ∈ factorsList fs, f.isAdd = false) :
    standing bounds (ofFactors fs).powers = (fs.map (Expr.standing bounds)).sum := by
  have hmul : ∀ f ∈ factorsList fs, f.isMul = false := by
    intro f hf
    obtain ⟨e, -, hf⟩ := mem_factorsList.mp hf
    exact isMul_of_mem_factors hf
  rw [ofFactors, standing_foldl hmul hadd, standings_factorsList]
  simp [standing, one]

end PowerProduct

/-- A power of a sum that expansion leaves standing, with an exponent in which nothing is to be multiplied
out. -/
structure StandingPower (bounds : Bounds) (F : Func → Prop) (ts : List Expr) (exponent : Expr) : Prop where
  base : Flat bounds F 0 (.add ts)
  normal : Normal bounds exponent
  apart : exponent.Apart bounds true F
  stays : exponent.Stays bounds

namespace StandingPower

variable {ts : List Expr} {exponent : Expr}

theorem flatTerm (h : StandingPower bounds F ts exponent) :
    FlatTerm bounds F 1 (.pow (.add ts) exponent) :=
  ⟨⟨.sumPow h.base.apart (nonpos_iff_eq_zero.mp h.base.standing_le) h.normal h.apart fun _ _ => h.stays,
    standing_pow_le _ _⟩, rfl⟩

section Limit

variable (hlimit : 1 ≤ bounds.maxExpandExponent)

include hlimit

theorem inert (h : StandingPower bounds F ts exponent) : Inert (.add ts) exponent := by
  refine ⟨?_, ?_, by simp [Expr.one], fun _ => rfl, fun _ _ _ hopens => hopens⟩
  · rintro rfl
    have hzero := h.stays 0 rfl rfl (Nat.zero_le _)
    norm_num at hzero
  · rintro rfl
    have hone := h.stays 1 rfl rfl (by simpa using hlimit)
    norm_num at hone

/-- The rule for powers leaves it as it is. -/
theorem power (h : StandingPower bounds F ts exponent) :
    power bounds (.add ts) exponent = .ok (.pow (.add ts) exponent) :=
  power_of_shape (.inert (h.inert hlimit))

omit hlimit in
theorem standing_eq (h : StandingPower bounds F ts exponent) :
    (Expr.pow (.add ts) exponent).standing bounds = standsFor bounds (.add ts) exponent := by
  rw [standing_pow, h.stays.multipliesOut]
  rfl

/-- If its base is normal, it stays a power of its base. -/
theorem standing_of_normal (h : StandingPower bounds F ts exponent) (hnormal : Normal bounds (.add ts)) :
    (Expr.pow (.add ts) exponent).standing bounds = Pi.single (.add ts) 1 := by
  have hpass := pass_empty_normal hnormal
  have hexpand := Expand.expandNodes_of_apart (.pow hnormal h.normal (.inert (h.inert hlimit)))
    h.flatTerm.apart
  have hbase : expandedBase? bounds (.add ts) exponent = some (.add ts) := by
    unfold expandedBase?
    rw [if_pos hpass, hexpand]
    exact if_pos hpass
  rw [h.standing_eq, standsFor, hbase]

omit hlimit in
theorem standing_of_not_normal (h : StandingPower bounds F ts exponent)
    (hnormal : ¬ Normal bounds (.add ts)) : (Expr.pow (.add ts) exponent).standing bounds = 1 := by
  have hbase : expandedBase? bounds (.add ts) exponent = none :=
    if_neg fun hpass => hnormal (normal_of_pass_empty hpass)
  rw [h.standing_eq, standsFor, hbase]

theorem standing_self (h : StandingPower bounds F ts exponent) :
    (Expr.pow (.add ts) exponent).standing bounds (.add ts) = 1 := by
  by_cases hnormal : Normal bounds (.add ts)
  · rw [h.standing_of_normal hlimit hnormal, Pi.single_eq_same]
  · rw [h.standing_of_not_normal hnormal]
    rfl

end Limit

end StandingPower

/-- A power in a flat term has a base that is free of sums, or it is a standing power of a sum. -/
theorem FlatTerm.pow_cases {base exponent : Expr} (h : FlatTerm bounds F k (.pow base exponent)) :
    (FlatTerm bounds F 0 base ∧ Flat bounds F 1 exponent) ∨
      ∃ ts, base = .add ts ∧ StandingPower bounds F ts exponent := by
  rcases h.apart.pow_cases with ⟨hbase, hfree, hexponent⟩ |
    ⟨ts, rfl, hbase, hzero, hnormal, hexponent, hstays⟩
  · exact .inl ⟨hbase.flatTerm hfree, hexponent.flat⟩
  · exact .inr ⟨ts, rfl, ⟨hbase, hzero.le⟩, hnormal, hexponent, hstays⟩

/-- So has a factor that is neither a constant nor a product. -/
theorem FlatTerm.factor_cases {f : Expr} (h : FlatTerm bounds F k f) (hconstant : f.isConstant = false)
    (hmul : f.isMul = false) :
    (FlatTerm bounds F 0 (factorBase f) ∧ Flat bounds F 1 (factorExponent f)) ∨
      ∃ ts, factorBase f = .add ts ∧ StandingPower bounds F ts (factorExponent f) := by
  cases f with
  | constant => cases hconstant
  | mul => cases hmul
  | add => cases h.not_add
  | pow base exponent => exact h.pow_cases
  | symbol | function => exact .inl ⟨h.apart.flatTerm rfl, (flatTerm_constant 1).toFlat⟩

/-- The rule for powers keeps terms without standing powers, for a base. -/
def KeepsPlain (bounds : Bounds) (F : Func → Prop) (base : Expr) : Prop :=
  ∀ exponent r, power bounds base exponent = .ok r → FlatTerm bounds F 0 base →
    Flat bounds F 1 exponent → FlatTerm bounds F 0 r

/-- Of two powers of one sum that stand, both stand for it. -/
theorem length_le_one_of_standing (hlimit : 1 ≤ bounds.maxExpandExponent) {ts exponents : List Expr}
    (hstanding : ∀ x ∈ exponents, StandingPower bounds F ts x)
    (hone : (exponents.map fun x => (Expr.pow (.add ts) x).standing bounds).sum ≤ 1) :
    exponents.length ≤ 1 := by
  match exponents with
  | [] => exact Nat.zero_le 1
  | [x] => exact le_rfl
  | x :: y :: rest =>
    have hself := hone (.add ts)
    simp only [List.map_cons, List.sum_cons, Pi.add_apply, Pi.one_apply,
      (hstanding x (by simp)).standing_self hlimit, (hstanding y (by simp)).standing_self hlimit] at hself
    omega

/-- What becomes of the exponents of one base. If it is a sum, there is one of them only. -/
theorem flatTerm_collected (hlimit : 1 ≤ bounds.maxExpandExponent) {fs : List Expr}
    (hfs : ∀ f ∈ factorsList fs, FlatTerm bounds F 1 f)
    (hsum : (fs.map (standing bounds)).sum ≤ 1)
    (hP : ∀ f ∈ factorsList fs, KeepsPlain bounds F (factorBase f))
    {p : Expr × List Expr} (hp : p ∈ (PowerProduct.ofFactors fs).powers) {q : Expr}
    (hq : power bounds p.1 (addExponents p.2) = .ok q) :
    FlatTerm bounds F 1 q ∧
      q.standing bounds ≤ (p.2.map fun x => (Expr.pow p.1 x).standing bounds).sum := by
  have hcollected := PowerProduct.collected_ofFactors fs
  have hmul : ∀ f ∈ factorsList fs, f.isMul = false := by
    intro f hf
    obtain ⟨e, -, hf⟩ := mem_factorsList.mp hf
    exact isMul_of_mem_factors hf
  obtain ⟨f, hf, hconstant, hbase⟩ := PowerProduct.exists_factor_of_mem_powers hp
  rcases (hfs f hf).factor_cases hconstant (hmul f hf) with ⟨hplain, -⟩ | ⟨ts, hadd, -⟩
  · have hexponents : ∀ x ∈ p.2, Flat bounds F 1 x := by
      intro x hx
      obtain ⟨g, hg, hgconstant, hgbase, rfl⟩ := hcollected.exists_factor p hp x hx
      rcases (hfs g hg).factor_cases hgconstant (hmul g hg) with ⟨-, hexponent⟩ | ⟨_, -, hstanding⟩
      · exact hexponent
      · exact hstanding.apart.flat
    have hterm : FlatTerm bounds F 0 q := by
      rw [hbase] at hq
      exact hP f hf _ q hq hplain (Inherits.addExponents (fun _ => flat_add le_rfl) hexponents)
    exact ⟨hterm.mono zero_le_one, hterm.standing_le.trans zero_le⟩
  · rw [hbase, hadd] at hq ⊢
    have hstanding : ∀ x ∈ p.2, StandingPower bounds F ts x := by
      intro x hx
      obtain ⟨g, hg, hgconstant, hgbase, rfl⟩ := hcollected.exists_factor p hp x hx
      rcases (hfs g hg).factor_cases hgconstant (hmul g hg) with ⟨hplain, -⟩ | ⟨us, hus, hstanding⟩
      · rw [hgbase, hbase, hadd] at hplain
        cases hplain.not_add
      · rw [hgbase, hbase, hadd] at hus
        cases hus
        exact hstanding
    have htotal : PowerProduct.standing bounds (PowerProduct.ofFactors fs).powers =
        (fs.map (Expr.standing bounds)).sum :=
      PowerProduct.standing_ofFactors fun f hf => (hfs f hf).not_add
    have hone : (p.2.map fun x => (Expr.pow p.1 x).standing bounds).sum ≤ 1 :=
      (List.single_le_sum (fun _ _ => zero_le) _ (List.mem_map_of_mem hp)).trans (htotal.le.trans hsum)
    rw [hbase, hadd] at hone
    obtain ⟨x, hx⟩ : ∃ x, p.2 = [x] := by
      rw [← List.length_eq_one_iff]
      exact le_antisymm (length_le_one_of_standing hlimit hstanding hone)
        (List.length_pos_of_ne_nil (hcollected.ne_nil p hp))
    have hpower := (hstanding x (by simp [hx])).power hlimit
    rw [hx] at hq ⊢
    cases hpower.symm.trans hq
    exact ⟨(hstanding x (by simp [hx])).flatTerm, by simp⟩

/-- A product of flat terms is a flat term, if one standing power of each sum at most is multiplied. -/
theorem flatTerm_multiplyWith (hlimit : 1 ≤ bounds.maxExpandExponent) (hk : k ≤ 1) {fs : List Expr}
    {r : Expr} (hfs : ∀ f ∈ fs, FlatTerm bounds F 1 f) (hsum : (fs.map (standing bounds)).sum ≤ k)
    (hP : ∀ f ∈ factorsList fs, KeepsPlain bounds F (factorBase f))
    (hr : multiplyWith (power bounds) fs = .ok r) : FlatTerm bounds F k r := by
  have hopened : ∀ f ∈ factorsList fs, FlatTerm bounds F 1 f := by
    intro f hf
    obtain ⟨e, he, hf⟩ := mem_factorsList.mp hf
    exact (hfs e he).of_mem_factors hf
  rcases multiplyWith_eq_ok.mp hr with ⟨-, rfl⟩ | ⟨-, ps, hps, rfl⟩
  · exact flatTerm_constant 0
  have hall : List.Forall₂ (fun p q => FlatTerm bounds F 1 q ∧
      q.standing bounds ≤ (p.2.map fun x => (Expr.pow p.1 x).standing bounds).sum)
      (PowerProduct.ofFactors fs).powers ps :=
    forall₂_imp_of_mem hps fun p hp q hq => flatTerm_collected hlimit hopened (hsum.trans hk) hP hp hq
  refine flatTerm_assemble hk _ (fun q hq => ?_) ?_
  · obtain ⟨p, -, hterm, -⟩ := exists_of_forall₂_right hall (List.mem_filter.mp hq).1
    exact hterm
  · have hfiltered : (((ps.filter fun e => e.constant?.isNone)).map (standing bounds)).sum ≤
        (ps.map (standing bounds)).sum :=
      ((List.filter_sublist).map _).sum_le_sum fun _ _ => zero_le
    have hpowers : (ps.map (standing bounds)).sum ≤
        PowerProduct.standing bounds (PowerProduct.ofFactors fs).powers := by
      have hboth : List.Forall₂ (· ≤ ·) (ps.map (standing bounds))
          ((PowerProduct.ofFactors fs).powers.map fun p =>
            (p.2.map fun x => (Expr.pow p.1 x).standing bounds).sum) := by
        rw [List.forall₂_map_left_iff, List.forall₂_map_right_iff]
        exact hall.flip.imp fun _ _ h => h.2
      exact hboth.sum_le_sum
    rw [PowerProduct.standing_ofFactors fun f hf => (hopened f hf).not_add] at hpowers
    exact (hfiltered.trans hpowers).trans hsum

/-! ## Powers -/

/-- A sum in front of which a coefficient is put stays flat. -/
theorem flat_scaled (hk : k ≤ 1) {ts : List Expr} (h : Flat bounds F k (.add ts)) {c : Rat} {r : Expr}
    (hr : multiplyWith (power bounds) [.add ts, .constant c] = .ok r) : Flat bounds F k r := by
  have hparts : PowerProduct.ofFactors [.add ts, .constant c] = ⟨1 * c, [(.add ts, [.one])]⟩ := rfl
  rcases multiplyWith_eq_ok.mp hr with ⟨-, rfl⟩ | ⟨-, ps, hps, rfl⟩
  · exact (flatTerm_constant 0).toFlat
  rw [hparts] at hps ⊢
  obtain ⟨q, rest, hq, hnil, rfl⟩ := List.forall₂_cons_left_iff.mp hps
  obtain rfl := List.forall₂_nil_left_iff.mp hnil
  cases (power_one (.add ts)).symm.trans hq
  show Flat bounds F k (assemble _ [.add ts])
  unfold assemble
  split
  · exact (flatTerm_constant 0).toFlat
  · dsimp only
    split
    · exact h
    · exact flat_gathered hk _ fun t ht => (h.of_add t ht).toFlat

theorem FlatTerm.with_coefficient (hk : k ≤ 1) {p : Expr} (h : FlatTerm bounds F k p) (c : Rat) :
    FlatTerm bounds F k (.mul [.constant c, p]) := by
  have hproduct : FlatTerm bounds F k (Expr.product [.constant c, p]) :=
    flatTerm_product hk (by simpa using ⟨flatTerm_constant c, h.mono hk⟩) (by simpa using h.standing_le)
  exact hproduct

theorem BasicForm.flatTerm {b q : Rat} {r : Expr} (h : BasicForm bounds b q r) :
    FlatTerm bounds F 0 r := by
  have hpow (b q : Rat) : FlatTerm bounds F 0 (.pow (.constant b) (.constant q)) :=
    (Apart.pow (.constant b) rfl (.constant q)).flatTerm rfl
  cases h with
  | constant c => exact flatTerm_constant c
  | kept => exact hpow b q
  | radical c d => exact (hpow d (1 / 2)).with_coefficient zero_le_one c

theorem ConstantForm.flatTerm {b q : Rat} {r : Expr} (h : ConstantForm bounds b q r) :
    FlatTerm bounds F 0 r := by
  cases h with
  | basic h => exact BasicForm.flatTerm (basicPower_eq_ok h)
  | split integral _ _ hp =>
    have hfraction := BasicForm.flatTerm (F := F) (basicPower_eq_ok hp)
    unfold withCoefficient
    split
    · exact hfraction
    · exact hfraction.with_coefficient zero_le_one integral

section Limit

variable (hlimit : 1 ≤ bounds.maxExpandExponent)

include hlimit

/-- A product whose factors have shallow bases is a flat term if powers of shallow bases are. -/
theorem flatTerm_multiplyWith_of_depth {depth : Nat}
    (hplain : ∀ b : Expr, b.depth < depth → KeepsPlain bounds F b) (hk : k ≤ 1) {fs : List Expr}
    {r : Expr} (hdeep : ∀ f ∈ fs, ∃ d < depth, BasesWithin d f) (hfs : ∀ f ∈ fs, FlatTerm bounds F 1 f)
    (hsum : (fs.map (standing bounds)).sum ≤ k) (hr : multiplyWith (power bounds) fs = .ok r) :
    FlatTerm bounds F k r := by
  refine flatTerm_multiplyWith hlimit hk hfs hsum (fun f hf => ?_) hr
  obtain ⟨g, hg, hfg⟩ := mem_factorsList.mp hf
  obtain ⟨d, hd, hwithin⟩ := hdeep g hg
  exact hplain _ ((hwithin f hfg).trans_lt hd)

/-- The exponent of a power that is raised. -/
theorem flat_combined {inner e combined : Expr} {n : Rat}
    (hplain : ∀ b : Expr, b.depth < (Expr.pow inner e).depth → KeepsPlain bounds F b)
    (he : Flat bounds F 1 e) (hr : multiplyWith (power bounds) [e, .constant n] = .ok combined) :
    Flat bounds F 1 combined := by
  cases hadd : e.isAdd with
  | true =>
    cases e with
    | add ts => exact flat_scaled le_rfl he hr
    | _ => cases hadd
  | false =>
    have hfactors : ∀ f ∈ [e, .constant n], FlatTerm bounds F 1 f := by
      simpa using ⟨⟨he, hadd⟩, flatTerm_constant n⟩
    exact (flatTerm_multiplyWith_of_depth hlimit hplain le_rfl basesWithin_exponents hfactors
      (by simpa using he.standing_le) hr).toFlat

/-- The product of the powers that a power of a product is spread to. -/
theorem flatTerm_spread {factors powers : List Expr} {n r : Expr}
    (hplain : ∀ b : Expr, b.depth < (Expr.mul factors).depth → KeepsPlain bounds F b)
    (hfactors : FlatTerm bounds F 0 (.mul factors)) (hn : Flat bounds F 1 n)
    (hpowers : List.Forall₂ (fun f p => power bounds f n = .ok p) factors powers)
    (hr : multiplyWith (power bounds) powers = .ok r) : FlatTerm bounds F 0 r := by
  obtain ⟨hflat, -⟩ := hfactors.toFlat.of_mul
  have hfree := (sumFree_mul factors).mp hfactors.sumFree
  have hterms : ∀ p ∈ powers, FlatTerm bounds F 0 p ∧
      ∃ d < (Expr.mul factors).depth, BasesWithin d p := by
    intro p hp
    obtain ⟨f, hf, hfp⟩ := exists_of_forall₂_right hpowers hp
    have hdepth : f.depth < (Expr.mul factors).depth := depth_lt_of_mem_children hf
    exact ⟨hplain f hdepth _ p hfp ((hflat f hf).apart.flatTerm (hfree f hf)) hn,
      f.depth, hdepth, basesWithin_power hfp⟩
  refine flatTerm_multiplyWith_of_depth hlimit hplain zero_le_one (fun p hp => (hterms p hp).2)
    (fun p hp => (hterms p hp).1.mono zero_le_one) (List.sum_eq_zero fun m hm => ?_).le hr
  obtain ⟨p, hp, rfl⟩ := List.mem_map.mp hm
  exact nonpos_iff_eq_zero.mp (hterms p hp).1.standing_le

omit hlimit in
theorem flatTerm_imaginaryPower (hunit : FlatTerm bounds F 0 .imaginaryUnit) (n : Int) :
    FlatTerm bounds F 0 (imaginaryPower n) := by
  unfold imaginaryPower
  split
  · exact flatTerm_constant 1
  · exact hunit
  · exact flatTerm_constant _
  · exact hunit.with_coefficient zero_le_one _

/-- Powers of terms without standing powers are such terms. By induction on the depth of the base: every
further power is one of a base that lies deeper. -/
theorem flatTerm_power {base : Expr} : KeepsPlain bounds F base := by
  intro exponent r hr hbase hexponent
  have hplain (b : Expr) (_ : b.depth < base.depth) : KeepsPlain bounds F b := flatTerm_power
  have houtcome := power_outcome hr
  generalize hresult : Except.ok r = result at houtcome
  cases houtcome with
  | one =>
    cases hresult
    exact flatTerm_constant 1
  | base =>
    cases hresult
    exact hbase
  | constants =>
    exact ConstantForm.flatTerm (constantPower_eq_ok (fun hs => power_fraction hs) hresult.symm)
  | @nested inner e n =>
    obtain ⟨combined, hcombined, hpower⟩ := bind_eq_ok.mp hresult.symm
    obtain ⟨hinner, he⟩ : FlatTerm bounds F 0 inner ∧ Flat bounds F 1 e := by
      refine hbase.pow_cases.resolve_right ?_
      rintro ⟨ts, rfl, -⟩
      have hfree := hbase.sumFree
      rw [sumFree_pow] at hfree
      cases hfree
    exact hplain inner (depth_lt_pow inner e).1 combined r hpower hinner
      (flat_combined hlimit hplain he hcombined)
  | spread =>
    obtain ⟨powers, hpowers, hproduct⟩ := bind_eq_ok.mp hresult.symm
    exact flatTerm_spread hlimit hplain hbase hexponent (mapM_eq_ok.mp hpowers) hproduct
  | imaginary =>
    cases hresult
    exact flatTerm_imaginaryPower ((Apart.function hbase.apart.of_function.1 (by simp)).flatTerm rfl) _
  | inert =>
    cases hresult
    exact (Apart.pow hbase.apart hbase.sumFree hexponent.apart).flatTerm
      (by rw [sumFree_pow]; exact hbase.sumFree)
termination_by base.depth

/-- The rule for products. -/
theorem flatTerm_multiply (hk : k ≤ 1) {fs : List Expr} {r : Expr} (hfs : ∀ f ∈ fs, FlatTerm bounds F 1 f)
    (hsum : (fs.map (standing bounds)).sum ≤ k) (hr : multiply bounds fs = .ok r) :
    FlatTerm bounds F k r := by
  rw [multiply_eq] at hr
  exact flatTerm_multiplyWith hlimit hk hfs hsum (fun _ _ => flatTerm_power hlimit) hr

/-- The rule for powers of a flat sum, with an exponent that stays if the base is a sum. -/
theorem flatTerm_sumPower {base exponent r : Expr} (hbase : Flat bounds F 0 base)
    (hnormal : Normal bounds exponent) (hexponent : exponent.Apart bounds true F)
    (hstays : base.isAdd = true → exponent.Stays bounds) (hr : power bounds base exponent = .ok r) :
    FlatTerm bounds F 1 r := by
  cases hadd : base.isAdd with
  | true =>
    cases base with
    | add ts =>
      have hstanding : StandingPower bounds F ts exponent := ⟨hbase, hnormal, hexponent, hstays rfl⟩
      cases (hstanding.power hlimit).symm.trans hr
      exact hstanding.flatTerm
    | _ => cases hadd
  | false => exact (flatTerm_power hlimit _ _ hr ⟨hbase, hadd⟩ hexponent.flat).mono zero_le_one

/-! ## Functions -/

/-- Multiplying a flat term by `-1` keeps it. -/
theorem flatTerm_minus (hk : k ≤ 1) {e r : Expr} (h : FlatTerm bounds F k e)
    (hr : multiply bounds [.integer (-1), e] = .ok r) : FlatTerm bounds F k r :=
  flatTerm_multiply hlimit hk
    (by simpa using ⟨flatTerm_constant ((-1 : Int) : Rat), h.mono hk⟩)
    (by simpa [Expr.integer] using h.standing_le) hr

theorem apart_opposite {e p : Expr} (h : e.Apart bounds true F) (hneg : e.splitCoefficient.1 < 0)
    (hp : multiply bounds [.integer (-1), e] = .ok p) : p.Apart bounds true F := by
  have hadd : e.isAdd = false := by
    cases e <;> first | rfl | exact absurd hneg (by simp [Expr.splitCoefficient])
  exact (flatTerm_minus hlimit le_rfl ⟨h.flat, hadd⟩ hp).apart

omit hlimit in
/-- Where no function is applied to the one that undoes it, special values are constants. -/
theorem exists_constant_of_specialValue {f : Func} {argument value : Expr}
    (h : argument.Apart bounds true (f.Without F)) (hvalue : SpecialValue f argument value) :
    ∃ c, value = .constant c := by
  cases hvalue with
  | sin | tan | ln => exact ⟨0, rfl⟩
  | cos | exp => exact ⟨1, rfl⟩
  | exp_ln | ln_exp => exact absurd rfl h.of_function.1.2

/-- The rule for functions makes a flat term of a function of flat sums. -/
theorem flatTerm_apply {f : Func} {arguments : List Expr} {r : Expr}
    (h : (Expr.function f arguments).Apart bounds true F)
    (hr : Canonical.apply bounds f arguments = .ok r) : FlatTerm bounds F 0 r := by
  obtain ⟨hf, harguments⟩ := h.of_function
  have hcall {a : Expr} (ha : a.Apart bounds true (f.Without F)) : FlatTerm bounds F 0 (.call f a) :=
    (Apart.function hf (by simpa using ha)).flatTerm rfl
  have houtcome := hr ▸ apply_outcome bounds f arguments
  generalize hresult : Except.ok r = result at houtcome
  cases houtcome with
  | unit =>
    cases hresult
    exact (Apart.function hf (by simp)).flatTerm rfl
  | special hvalue =>
    cases hresult
    obtain ⟨c, rfl⟩ := exists_constant_of_specialValue (harguments _ (by simp)) hvalue
    exact flatTerm_constant c
  | kept =>
    cases hresult
    exact hcall (harguments _ (by simp))
  | even hneg =>
    obtain ⟨positive, hpositive, hr⟩ := bind_eq_ok.mp hresult.symm
    cases hr
    exact hcall (apart_opposite hlimit (harguments _ (by simp)) hneg hpositive)
  | odd _ hneg =>
    obtain ⟨positive, hpositive, hminus⟩ := bind_eq_ok.mp hresult.symm
    exact flatTerm_minus hlimit zero_le_one
      (hcall (apart_opposite hlimit (harguments _ (by simp)) hneg hpositive)) hminus
  | arity => cases hresult

/-! ## Passes -/

/-- The expression stays flat, and no further power of a sum stands in it. -/
def Flattens (bounds : Bounds) (e r : Expr) : Prop :=
  ∀ F k, k ≤ 1 → (Flat bounds F k e → Flat bounds F k r) ∧
    (FlatTerm bounds F k e → FlatTerm bounds F k r)

omit hlimit in
theorem Flattens.of_term {e r : Expr} (hadd : e.isAdd = false)
    (h : ∀ F k, k ≤ 1 → FlatTerm bounds F k e → FlatTerm bounds F k r) : Flattens bounds e r :=
  fun F k hk => ⟨fun he => (h F k hk ⟨he, hadd⟩).toFlat, h F k hk⟩

omit hlimit in
theorem Flattens.standing_le {e r : Expr} (h : Flattens bounds e r) (he : e.Apart bounds true F) :
    r.standing bounds ≤ e.standing bounds :=
  ((h F _ he.standing_le_one).1 ⟨he, le_rfl⟩).standing_le

omit hlimit in
theorem Flattens.apart {e r : Expr} (h : Flattens bounds e r) (he : e.Apart bounds true F) :
    r.Apart bounds true F :=
  ((h F 1 le_rfl).1 he.flat).apart

/-- The rule for a node, over children that stayed flat, where normal ones stayed as they are. -/
theorem flattens_simplifyNode {e r : Expr} {cs : List Expr}
    (hchildren : List.Forall₂ (Flattens bounds) e.children cs)
    (hnormal : List.Forall₂ (fun c d => Normal bounds c → d = c) e.children cs)
    (hr : simplifyNode bounds (e.withChildren cs) = .ok r) : Flattens bounds e r := by
  cases e with
  | constant | symbol =>
    cases hr
    exact fun _ _ _ => ⟨id, id⟩
  | add ts =>
    cases hr
    refine fun F k hk => ⟨fun he => flat_add hk fun d hd => ?_, fun he => by cases he.not_add⟩
    obtain ⟨t, ht, hflattens⟩ := exists_of_forall₂_right
      (forall₂_imp_of_mem hchildren fun t ht d h => (h F k hk).1 (he.of_add t ht).toFlat) hd
    exact hflattens
  | mul fs =>
    refine .of_term rfl fun F k hk he => ?_
    obtain ⟨hfactors, hsum⟩ := he.toFlat.of_mul
    have hterms : List.Forall₂ (fun f d => FlatTerm bounds F 1 d ∧
        d.standing bounds ≤ f.standing bounds) fs cs :=
      forall₂_imp_of_mem hchildren fun f hf d h =>
        ⟨(h F 1 le_rfl).2 (hfactors f hf), h.standing_le (hfactors f hf).apart⟩
    have hsums : List.Forall₂ (· ≤ ·) (cs.map (standing bounds)) (fs.map (standing bounds)) := by
      rw [List.forall₂_map_left_iff, List.forall₂_map_right_iff]
      exact hterms.flip.imp fun _ _ h => h.2
    refine flatTerm_multiply hlimit hk (fun d hd => ?_) (hsums.sum_le_sum.trans hsum) hr
    obtain ⟨f, -, hterm, -⟩ := exists_of_forall₂_right hterms hd
    exact hterm
  | pow base exponent =>
    obtain ⟨b, x, rfl, hb, hx⟩ := exists_of_forall₂_pair hchildren
    have hr : power bounds b x = .ok r := hr
    refine .of_term rfl fun F k hk he => ?_
    rcases he.pow_cases with ⟨hbase, hexponent⟩ | ⟨ts, rfl, hstanding⟩
    · exact (flatTerm_power hlimit _ _ hr ((hb F 0 zero_le_one).2 hbase)
        ((hx F 1 le_rfl).1 hexponent)).mono zero_le
    · obtain ⟨hfixed, hrest⟩ := List.forall₂_cons.mp hnormal
      obtain rfl := (List.forall₂_cons.mp hrest).1 hstanding.normal
      -- A power of a normal sum stays as it is, and a power of any other sum counts for all sums.
      by_cases hsum : Normal bounds (.add ts)
      · obtain rfl := hfixed hsum
        cases (hstanding.power hlimit).symm.trans hr
        exact he
      · exact (flatTerm_sumPower hlimit ((hb F 0 zero_le_one).1 hstanding.base) hstanding.normal
          hstanding.apart (fun _ => hstanding.stays) hr).mono
            (hstanding.standing_of_not_normal hsum ▸ he.standing_le)
  | function f arguments =>
    refine .of_term rfl fun F k hk he => ?_
    obtain ⟨hf, harguments⟩ := he.apart.of_function
    refine (flatTerm_apply hlimit (.function hf fun d hd => ?_) hr).mono zero_le
    obtain ⟨a, ha, hapart⟩ := exists_of_forall₂_right
      (forall₂_imp_of_mem hchildren fun a ha d h => h.apart (harguments a ha)) hd
    exact hapart

theorem flattens_pass {memo : Memo} (hmemo : memo.Reachable bounds)
    (hentries : ∀ e c, memo.find? e = some c → Flattens bounds e c) {e r : Expr}
    (hpass : pass bounds memo e = .ok r) : Flattens bounds e r := by
  induction e using Expr.induction generalizing r with
  | node e ih =>
    rw [pass_eq, bind_eq_ok] at hpass
    obtain ⟨cs, hcs, hr⟩ := hpass
    cases hfind : memo.find? e with
    | some canonical =>
      rw [passStep_of_find hfind] at hr
      cases hr
      exact hentries e _ hfind
    | none =>
      rw [passStep_of_not_find hfind] at hr
      have hpasses := mapM_eq_ok.mp hcs
      refine flattens_simplifyNode hlimit (forall₂_imp_of_mem hpasses fun c hc d hd => ih c hc hd)
        (hpasses.imp fun c d hd hc => ?_) hr
      rw [pass_eq_of_direct hmemo.faithful hc.direct, pass_empty_normal hc] at hd
      exact (Except.ok.inj hd).symm

/-- A canonicalization keeps flat expressions flat. -/
theorem flattens_run {memo : Memo} (hmemo : memo.Reachable bounds) {e c : Expr}
    (hrun : ((canonicalize bounds e).run.run memo).1 = .ok c) : Flattens bounds e c :=
  hmemo.related_run (fun _ _ _ _ => ⟨id, id⟩)
    (fun hab hbc F k hk => ⟨(hbc F k hk).1 ∘ (hab F k hk).1, (hbc F k hk).2 ∘ (hab F k hk).2⟩)
    (fun _ hmemo hentries _ _ hpass => flattens_pass hlimit hmemo hentries hpass) hrun

end Limit

end ClosedForm
