import ClosedForm.Proofs.Collecting
import ClosedForm.Proofs.ConstantPower
import ClosedForm.Proofs.Order

/-!
# Powers without fuel

The rules for powers and products call each other, and the fuel of `powerWithin` is there to
bound the nesting of these calls. It is never used up: a call from within the rule for powers
is about a base that is less deep. So the rules satisfy their equations without fuel,
`power_eq` and `multiply_eq`, and the depth of the base is what a proof about powers recurses
on.

The bases that a product of powers is made of are no deeper than the bases that the factors
had, or by one where a coefficient was distributed (`BasesWithin.multiplyWith`).
-/

namespace ClosedForm

namespace Expr

/-! ## Depth -/

theorem depth_eq (e : Expr) : e.depth = 1 + (e.children.map depth).foldl max 0 := by
  unfold depth
  rw [recurse_eq]

theorem foldl_max_le {ns : List Nat} {init d : Nat} :
    ns.foldl max init ≤ d ↔ init ≤ d ∧ ∀ n ∈ ns, n ≤ d := by
  induction ns generalizing init with
  | nil => simp
  | cons n ns ih => simp [ih, and_assoc]

theorem depth_le_iff {e : Expr} {d : Nat} :
    e.depth ≤ d + 1 ↔ ∀ c ∈ e.children, c.depth ≤ d := by
  rw [depth_eq, Nat.add_comm, Nat.add_le_add_iff_right, foldl_max_le]
  simp

theorem one_le_depth (e : Expr) : 1 ≤ e.depth := by
  rw [depth_eq]
  omega

theorem depth_lt_of_mem_children {c e : Expr} (h : c ∈ e.children) : c.depth < e.depth := by
  have h1 := one_le_depth e
  have h2 := (depth_le_iff (e := e) (d := e.depth - 1)).mp (by omega) c h
  omega

@[simp] theorem depth_constant (c : Rat) : (constant c).depth = 1 := by
  rw [depth_eq]
  rfl

theorem depth_factorBase_le (f : Expr) : (factorBase f).depth ≤ f.depth := by
  cases f with
  | pow base exponent =>
    exact (depth_lt_of_mem_children
      (show base ∈ (pow base exponent).children by simp [children])).le
  | _ => exact le_rfl

theorem depth_le_of_mem_factors {f e : Expr} (h : f ∈ e.factors) : f.depth ≤ e.depth :=
  holds_of_mem_factors (p := fun g => g.depth ≤ e.depth)
    (fun _ hle _ hg => (depth_lt_of_mem_children hg).le.trans hle) le_rfl h

/-! ## Bases -/

/-- No base among the opened factors is deeper than `d`. -/
def BasesWithin (d : Nat) (e : Expr) : Prop :=
  ∀ f ∈ e.factors, (factorBase f).depth ≤ d

theorem BasesWithin.mono {d d' : Nat} {e : Expr} (h : BasesWithin d e) (hd : d ≤ d') :
    BasesWithin d' e :=
  fun f hf => (h f hf).trans hd

theorem basesWithin_depth (e : Expr) : BasesWithin e.depth e :=
  fun f hf => (depth_factorBase_le f).trans (depth_le_of_mem_factors hf)

theorem basesWithin_constant {d : Nat} (hd : 1 ≤ d) (c : Rat) : BasesWithin d (constant c) :=
  (basesWithin_depth (constant c)).mono (by rw [depth_constant]; exact hd)

theorem basesWithin_pow (base exponent : Expr) : BasesWithin base.depth (pow base exponent) := by
  intro f hf
  rw [factors_of_not_isMul rfl, List.mem_singleton] at hf
  rw [hf]
  exact le_rfl

theorem basesWithin_product {d : Nat} (hd : 1 ≤ d) {es : List Expr}
    (h : ∀ e ∈ es, BasesWithin d e) : BasesWithin d (product es) := by
  cases es with
  | nil => exact basesWithin_constant hd 1
  | cons e es =>
    intro f hf
    rw [factors_product _ (by simp), mem_factorsList] at hf
    obtain ⟨g, hg, hf⟩ := hf
    exact h g hg f hf

end Expr

open ClosedForm.Expr

/-! ## Depth of sums -/

theorem depth_product_le {es : List Expr} {d : Nat} (h : ∀ e ∈ es, e.depth ≤ d) :
    (Expr.product es).depth ≤ d + 1 := by
  match es with
  | [] => simp [Expr.product, Expr.one]
  | [e] => exact (h e (by simp)).trans (by omega)
  | _ :: _ :: _ => exact depth_le_iff.mpr h

theorem depth_sum_le {es : List Expr} {d : Nat} (h : ∀ e ∈ es, e.depth ≤ d) :
    (Expr.sum es).depth ≤ d + 1 := by
  match es with
  | [] => simp [Expr.sum, Expr.zero]
  | [e] => exact (h e (by simp)).trans (by omega)
  | _ :: _ :: _ => exact depth_le_iff.mpr h

theorem depth_splitCoefficient_le (e : Expr) : e.splitCoefficient.2.depth ≤ e.depth := by
  unfold Expr.splitCoefficient
  split
  · simp [Expr.one]
  · next c factors =>
    have h : ∀ f ∈ factors, f.depth ≤ (Expr.mul (.constant c :: factors)).depth - 1 := by
      intro f hf
      have := depth_lt_of_mem_children
        (show f ∈ (Expr.mul (.constant c :: factors)).children by simp [children, hf])
      omega
    have hone := depth_lt_of_mem_children
      (show Expr.constant c ∈ (Expr.mul (.constant c :: factors)).children by simp [children])
    rw [depth_constant] at hone
    have hproduct := depth_product_le h
    show (Expr.product factors).depth ≤ _
    omega
  · exact le_rfl

theorem depth_scale_le (c : Rat) (e : Expr) : (e.scale c).depth ≤ e.depth + 1 := by
  unfold Expr.scale
  split
  · omega
  · split
    · next factors =>
      refine depth_product_le fun f hf => ?_
      rcases List.mem_cons.mp hf with rfl | hf
      · rw [depth_constant]
        exact one_le_depth _
      · exact (depth_lt_of_mem_children hf).le
    · refine depth_product_le fun f hf => ?_
      simp only [List.mem_cons, List.not_mem_nil, or_false] at hf
      rcases hf with rfl | rfl
      · rw [depth_constant]
        exact one_le_depth _
      · exact le_rfl

namespace LinearForm

/-- The expressions with coefficients are no deeper than `d`. -/
def Within (d : Nat) (form : LinearForm) : Prop :=
  ∀ t ∈ form.terms, t.1.depth ≤ d

/-- Gathering expressions that are not deep gives a form that is not deep. -/
theorem within_gatherList {d : Nat} (scale : Rat) (form : LinearForm) (es : List Expr)
    (hform : form.Within d) (hes : ∀ e ∈ es, e.depth ≤ d) :
    (gatherList scale form es).Within d :=
  Gathers.gatherList (P := fun e => e.depth ≤ d)
    (.of_rests (p := fun e => e.depth ≤ d)
      (fun he _ ht => (depth_lt_of_mem_children ht).le.trans he)
      (fun he => (depth_lt_of_mem_children (by simp [children])).le.trans he)
      fun he _ _ => (depth_splitCoefficient_le _).trans he) scale hform es hes

theorem depth_toExpr_le {d : Nat} {form : LinearForm} (h : form.Within d) :
    form.toExpr.depth ≤ d + 2 := by
  refine depth_sum_le fun e he => ?_
  rw [mem_sort, List.mem_append] at he
  rcases he with he | he
  · split at he
    · cases he
    · rw [List.mem_singleton] at he
      rw [he, depth_constant]
      omega
  · obtain ⟨t, ht, heq⟩ := List.mem_filterMap.mp he
    split at heq
    · cases heq
    · cases heq
      have := depth_scale_le t.2 t.1
      have := h t ht
      omega

end LinearForm

namespace Canonical

variable {bounds : Bounds} {P Q : Expr → Expr → Except Error Expr}

/-! ## Bases of products -/

theorem basesWithin_assemble {d : Nat} {c : Rat} {ps : List Expr}
    (h : ∀ p ∈ ps, BasesWithin d p) : BasesWithin (d + 1) (assemble c ps) := by
  unfold assemble
  split
  · exact basesWithin_constant (by omega) 0
  · split
    · exact basesWithin_constant (by omega) c
    · next terms =>
      have hterms : (Expr.add terms).depth ≤ d :=
        h (.add terms) (by simp) (.add terms) (by simp [Expr.factors])
      have hd := one_le_depth (Expr.add terms)
      split
      · exact (h (.add terms) (by simp)).mono (by omega)
      · have hd' : d = (d - 1) + 1 := by omega
        rw [hd', depth_le_iff] at hterms
        have hform := LinearForm.within_gatherList c .zero terms
          (by simp [LinearForm.Within, LinearForm.zero]) hterms
        exact (basesWithin_depth _).mono ((LinearForm.depth_toExpr_le hform).trans (by omega))
    · refine basesWithin_product (by omega) fun e he => ?_
      rw [mem_sort] at he
      split at he
      · exact (h e he).mono (by omega)
      · rcases List.mem_append.mp he with he | he
        · exact (h e he).mono (by omega)
        · rw [List.mem_singleton] at he
          rw [he]
          exact basesWithin_constant (by omega) c

/-- The bases of a product are at most one deeper than those of its factors. -/
theorem basesWithin_multiplyWith {d : Nat} {fs : List Expr} {r : Expr}
    (hP : ∀ f ∈ factorsList fs, f.isConstant = false → ∀ e p, P (factorBase f) e = .ok p →
      BasesWithin d p)
    (h : multiplyWith P fs = .ok r) : BasesWithin (d + 1) r := by
  rcases multiplyWith_eq_ok.mp h with ⟨-, rfl⟩ | ⟨-, ps, hps, rfl⟩
  · exact basesWithin_constant (by omega) 0
  · refine basesWithin_assemble fun p hp => ?_
    have hp' := (List.mem_filter.mp hp).1
    obtain ⟨q, hq, hqp⟩ := exists_of_forall₂_right hps hp'
    obtain ⟨f, hf, hconstant, hbase⟩ := PowerProduct.exists_factor_of_mem_powers hq
    exact hP f hf hconstant _ p (by rw [← hbase]; exact hqp)

/-! ## The rule for powers, one call deep -/

/-- The rule for powers, where `P` gives the powers of less deep bases. -/
def powerStep (bounds : Bounds) (P : Expr → Expr → Except Error Expr) (base exponent : Expr) :
    Except Error Expr :=
  if exponent.isZero || base.isOne then return .one
  else if exponent.isOne then return base
  else
    match exponent with
    | .constant n =>
      match base with
      | .constant b => constantPower bounds (multiplyWith P) b n
      | .pow inner e =>
        if Rational.isInteger n then do
          let combined ← multiplyWith P [e, exponent]
          P inner combined
        else return .pow base exponent
      | .mul factors =>
        if Rational.isInteger n then do
          let powers ← factors.mapM fun f => P f exponent
          multiplyWith P powers
        else return .pow base exponent
      | .function .imaginaryUnit _ =>
        if Rational.isInteger n then return imaginaryPower n.num
        else return .pow base exponent
      | _ => return .pow base exponent
    | _ => return .pow base exponent

theorem powerWithin_succ (fuel : Nat) (base exponent : Expr) :
    powerWithin bounds (fuel + 1) base exponent =
      powerStep bounds (powerWithin bounds fuel) base exponent := rfl

/-- An integer power of the base is rewritten. -/
def Opens : Expr → Prop
  | .constant _ | .pow _ _ | .mul _ | .function .imaginaryUnit _ => True
  | _ => False

/-- No rule rewrites the power. -/
structure Inert (base exponent : Expr) : Prop where
  exponent_ne_zero : exponent ≠ .zero
  exponent_ne_one : exponent ≠ .one
  base_ne_one : base ≠ .one
  not_constants : exponent.isConstant = true → base.isConstant = false
  not_opens : ∀ n, exponent = .constant n → Rational.isInteger n = true → ¬ Opens base

/-- What the rule for powers does, case by case. -/
inductive PowerOutcome (bounds : Bounds) (P : Expr → Expr → Except Error Expr) :
    Expr → Expr → Except Error Expr → Prop
  | one {base exponent : Expr} (h : exponent = .zero ∨ base = .one) :
    PowerOutcome bounds P base exponent (.ok .one)
  | base (base : Expr) : PowerOutcome bounds P base .one (.ok base)
  | constants {b n : Rat} (hb : b ≠ 1) (hzero : n ≠ 0) (hone : n ≠ 1) :
    PowerOutcome bounds P (.constant b) (.constant n) (constantPower bounds (multiplyWith P) b n)
  | nested {inner e : Expr} {n : Rat} (hn : Rational.isInteger n = true) (hzero : n ≠ 0)
    (hone : n ≠ 1) :
    PowerOutcome bounds P (.pow inner e) (.constant n)
      (multiplyWith P [e, .constant n] >>= fun combined => P inner combined)
  | spread {factors : List Expr} {n : Rat} (hn : Rational.isInteger n = true) (hzero : n ≠ 0)
    (hone : n ≠ 1) :
    PowerOutcome bounds P (.mul factors) (.constant n)
      ((factors.mapM fun f => P f (.constant n)) >>= fun powers => multiplyWith P powers)
  | imaginary {arguments : List Expr} {n : Rat} (hn : Rational.isInteger n = true) (hzero : n ≠ 0)
    (hone : n ≠ 1) :
    PowerOutcome bounds P (.function .imaginaryUnit arguments) (.constant n)
      (.ok (imaginaryPower n.num))
  | inert {base exponent : Expr} (h : Inert base exponent) :
    PowerOutcome bounds P base exponent (.ok (.pow base exponent))

theorem powerStep_outcome (base exponent : Expr) :
    PowerOutcome bounds P base exponent (powerStep bounds P base exponent) := by
  unfold powerStep
  by_cases htrivial : (exponent.isZero || base.isOne) = true
  · rw [if_pos htrivial]
    refine .one ?_
    rw [Bool.or_eq_true] at htrivial
    exact htrivial.imp eq_zero_of_isZero eq_one_of_isOne
  rw [if_neg htrivial]
  by_cases hone : exponent.isOne = true
  · rw [if_pos hone]
    obtain rfl := eq_one_of_isOne hone
    exact .base base
  rw [if_neg hone]
  have hinert (hconstant : exponent.isConstant = true → base.isConstant = false)
      (hopens : ∀ n, exponent = .constant n → Rational.isInteger n = true → ¬ Opens base) :
      PowerOutcome bounds P base exponent (.ok (.pow base exponent)) := by
    refine .inert ⟨?_, ?_, ?_, hconstant, hopens⟩
    · rintro rfl
      exact htrivial rfl
    · rintro rfl
      exact hone rfl
    · rintro rfl
      exact htrivial (by simp [Expr.isOne, Expr.one])
  cases exponent with
  | constant n =>
    have hn0 : n ≠ 0 := by
      rintro rfl
      exact htrivial rfl
    have hn1 : n ≠ 1 := by
      rintro rfl
      exact hone rfl
    have hfraction (h : ¬ Rational.isInteger n = true) :
        ∀ m, Expr.constant n = .constant m → Rational.isInteger m = true → ¬ Opens base := by
      rintro m heq hm
      cases heq
      exact absurd hm h
    cases base with
    | constant b =>
      refine .constants ?_ hn0 hn1
      rintro rfl
      exact htrivial (by simp [Expr.isOne])
    | pow inner e =>
      dsimp only
      split
      · next hn => exact .nested hn hn0 hn1
      · next hn => exact hinert (fun _ => rfl) (hfraction hn)
    | mul factors =>
      dsimp only
      split
      · next hn => exact .spread hn hn0 hn1
      · next hn => exact hinert (fun _ => rfl) (hfraction hn)
    | function f arguments =>
      cases f with
      | imaginaryUnit =>
        dsimp only
        split
        · next hn => exact .imaginary hn hn0 hn1
        · next hn => exact hinert (fun _ => rfl) (hfraction hn)
      | _ => exact hinert (fun _ => rfl) fun _ _ _ h => h
    | _ => exact hinert (fun _ => rfl) fun _ _ _ h => h
  | _ => exact hinert (fun h => by cases h) fun n h => by cases h

theorem outcome_of_eq_ok {base exponent r : Expr}
    (h : powerStep bounds P base exponent = .ok r) :
    PowerOutcome bounds P base exponent (.ok r) :=
  h ▸ powerStep_outcome base exponent

/-! ## Fuel is never used up -/

/-- `P` and `Q` are rules for powers that agree on the bases that are less deep than `d`. -/
structure Agree (bounds : Bounds) (d : Nat) (P Q : Expr → Expr → Except Error Expr) : Prop where
  eq : ∀ base exponent, base.depth < d → P base exponent = Q base exponent
  within : ∀ base exponent r, base.depth < d → P base exponent = .ok r → BasesWithin base.depth r
  fraction : ∀ b q, Splits bounds b q →
    P (.constant b) (.constant (q - q.floor)) = basicPower bounds b (q - q.floor) ∧
    Q (.constant b) (.constant (q - q.floor)) = basicPower bounds b (q - q.floor)

theorem Agree.multiplyWith {d : Nat} (h : Agree bounds d P Q) {fs : List Expr}
    (hfs : ∀ f ∈ fs, ∃ d' < d, BasesWithin d' f) : multiplyWith P fs = multiplyWith Q fs := by
  refine multiplyWith_congr fun f hf _ e => ?_
  obtain ⟨g, hg, hfg⟩ := mem_factorsList.mp hf
  obtain ⟨d', hd', hwithin⟩ := hfs g hg
  exact h.eq _ e ((hwithin f hfg).trans_lt hd')

theorem Agree.constantPower {d : Nat} (h : Agree bounds d P Q) (b n : Rat) :
    constantPower bounds (Canonical.multiplyWith P) b n =
      constantPower bounds (Canonical.multiplyWith Q) b n := by
  by_cases hsplits : Splits bounds b n
  · obtain ⟨hP, hQ⟩ := h.fraction b n hsplits
    rw [constantPower_splits hsplits hP, constantPower_splits hsplits hQ]
  · rw [constantPower_of_not_splits hsplits, constantPower_of_not_splits hsplits]

theorem depth_lt_pow (inner e : Expr) :
    inner.depth < (Expr.pow inner e).depth ∧ e.depth < (Expr.pow inner e).depth :=
  ⟨depth_lt_of_mem_children (by simp [children]), depth_lt_of_mem_children (by simp [children])⟩

theorem one_lt_depth_pow (inner e : Expr) : 1 < (Expr.pow inner e).depth :=
  (one_le_depth inner).trans_lt (depth_lt_pow inner e).1

/-- The factors of an exponent that is multiplied with a constant lie below the power. -/
theorem basesWithin_exponents {inner e : Expr} {n : Rat} :
    ∀ f ∈ [e, Expr.constant n], ∃ d' < (Expr.pow inner e).depth, BasesWithin d' f := by
  intro f hf
  simp only [List.mem_cons, List.not_mem_nil, or_false] at hf
  rcases hf with rfl | rfl
  · exact ⟨_, (depth_lt_pow inner f).2, basesWithin_depth f⟩
  · exact ⟨1, one_lt_depth_pow inner e, basesWithin_constant le_rfl n⟩

/-- The powers of the factors of a product have bases that lie below the product. -/
theorem Agree.within_spread {factors powers : List Expr} {exponent : Expr}
    (h : Agree bounds (Expr.mul factors).depth P Q)
    (hpowers : (factors.mapM fun f => P f exponent) = .ok powers) :
    ∀ p ∈ powers, ∃ d' < (Expr.mul factors).depth, BasesWithin d' p := by
  intro p hp
  obtain ⟨f, hf, hfp⟩ := exists_of_forall₂_right (mapM_eq_ok.mp hpowers) hp
  have hdepth : f.depth < (Expr.mul factors).depth := depth_lt_of_mem_children hf
  exact ⟨f.depth, hdepth, h.within f exponent p hdepth hfp⟩

/-- Rules for powers that agree below a base lead to the same power of the base. -/
theorem Agree.powerStep {base : Expr} (h : Agree bounds base.depth P Q) (exponent : Expr) :
    powerStep bounds P base exponent = powerStep bounds Q base exponent := by
  unfold Canonical.powerStep
  cases exponent with
  | constant n =>
    cases base with
    | constant b => simp only [h.constantPower]
    | pow inner e =>
      have hnext : (P inner) = Q inner := funext fun e' => h.eq inner e' (depth_lt_pow inner e).1
      simp only [h.multiplyWith basesWithin_exponents, hnext]
    | mul factors =>
      have hpowers : (factors.mapM fun f => P f (.constant n)) =
          factors.mapM fun f => Q f (.constant n) :=
        mapM_congr fun f hf => h.eq f _ (depth_lt_of_mem_children hf)
      have hproduct : ((factors.mapM fun f => P f (.constant n)) >>= Canonical.multiplyWith P) =
          ((factors.mapM fun f => Q f (.constant n)) >>= Canonical.multiplyWith Q) := by
        cases hps : factors.mapM fun f => P f (.constant n) with
        | error e => rw [← hpowers, hps]; rfl
        | ok ps =>
          rw [← hpowers, hps]
          exact h.multiplyWith (h.within_spread hps)
      simp only [hproduct]
    | function f arguments => cases f <;> rfl
    | _ => rfl
  | _ => rfl

theorem basesWithin_mul {d : Nat} {fs : List Expr} (h : ∀ f ∈ fs, BasesWithin d f) :
    BasesWithin d (.mul fs) := by
  intro g hg
  rw [factors_mul, mem_factorsList] at hg
  obtain ⟨f, hf, hg⟩ := hg
  exact h f hf g hg

theorem basesWithin_withCoefficient {c : Rat} {p : Expr} {d : Nat} (hd : 1 ≤ d)
    (h : BasesWithin d p) : BasesWithin d (withCoefficient c p) := by
  unfold withCoefficient
  split
  · exact h
  · refine basesWithin_mul fun f hf => ?_
    simp only [List.mem_cons, List.not_mem_nil, or_false] at hf
    rcases hf with rfl | rfl
    · exact basesWithin_constant hd c
    · exact h

theorem BasicForm.basesWithin {b q : Rat} {r : Expr} (h : BasicForm bounds b q r) :
    BasesWithin 1 r := by
  cases h with
  | constant c => exact basesWithin_constant le_rfl c
  | kept => exact (basesWithin_pow _ _).mono (depth_constant b).le
  | radical c d hq hb hc =>
    have hpow : BasesWithin 1 (.pow (.constant d) (.constant (1 / 2))) :=
      (basesWithin_pow _ _).mono (depth_constant d).le
    have := basesWithin_withCoefficient (c := c) le_rfl hpow
    rwa [withCoefficient, if_neg hc] at this

theorem ConstantForm.basesWithin {b q : Rat} {r : Expr} (h : ConstantForm bounds b q r) :
    BasesWithin 1 r := by
  cases h with
  | basic h => exact (basicPower_eq_ok h).basesWithin
  | split integral _ _ hp =>
    exact basesWithin_withCoefficient le_rfl (basicPower_eq_ok hp).basesWithin

theorem basesWithin_imaginaryPower {n : Int} {d : Nat} (hd : 1 ≤ d) :
    BasesWithin d (imaginaryPower n) := by
  have hi : BasesWithin d .imaginaryUnit := (basesWithin_depth _).mono hd
  unfold imaginaryPower
  split
  · exact basesWithin_constant hd 1
  · exact hi
  · exact basesWithin_constant hd _
  · refine basesWithin_mul fun f hf => ?_
    simp only [List.mem_cons, List.not_mem_nil, or_false] at hf
    rcases hf with rfl | rfl
    · exact basesWithin_constant hd _
    · exact hi

/-- The bases of a power are no deeper than its base. -/
theorem Agree.basesWithin {base exponent r : Expr} (h : Agree bounds base.depth P Q)
    (hr : Canonical.powerStep bounds P base exponent = .ok r) : BasesWithin base.depth r := by
  have houtcome := outcome_of_eq_ok hr
  generalize hresult : Except.ok r = result at houtcome
  cases houtcome with
  | one =>
    cases hresult
    exact basesWithin_constant (one_le_depth base) 1
  | base =>
    cases hresult
    exact basesWithin_depth base
  | @constants b n =>
    rw [depth_constant]
    exact (constantPower_eq_ok (fun hs => (h.fraction b n hs).1) hresult.symm).basesWithin
  | @nested inner e n =>
    obtain ⟨combined, -, hpower⟩ := bind_eq_ok.mp hresult.symm
    have hlt := (depth_lt_pow inner e).1
    exact (h.within inner combined r hlt hpower).mono hlt.le
  | @spread factors n =>
    obtain ⟨powers, hpowers, hproduct⟩ := bind_eq_ok.mp hresult.symm
    have hdepth := one_le_depth (Expr.mul factors)
    -- The bases lie at least one level below, and the product adds at most one.
    have hbases : ∀ f ∈ factorsList powers, f.isConstant = false → ∀ e p,
        P (factorBase f) e = .ok p → BasesWithin ((Expr.mul factors).depth - 1) p := by
      intro f hf _ e p hp
      obtain ⟨g, hg, hfg⟩ := mem_factorsList.mp hf
      obtain ⟨d', hd', hwithin⟩ := h.within_spread hpowers g hg
      have hle := hwithin f hfg
      exact (h.within _ e p (by omega) hp).mono (by omega)
    exact (basesWithin_multiplyWith hbases hproduct).mono (by omega)
  | imaginary =>
    cases hresult
    exact basesWithin_imaginaryPower (one_le_depth _)
  | inert =>
    cases hresult
    exact basesWithin_pow base exponent

/-- The power of a constant to the fraction that is left needs no further call. -/
theorem powerWithin_fraction {b q : Rat} (fuel : Nat) (h : Splits bounds b q) :
    powerWithin bounds (fuel + 1) (.constant b) (.constant (q - q.floor)) =
      basicPower bounds b (q - q.floor) := by
  have hint : Rational.isInteger (q - q.floor) = false := by
    rw [isInteger_fraction, h.not_isInteger]
  have hzero : q - q.floor ≠ 0 := by
    intro heq
    rw [heq] at hint
    cases hint
  have hone : q - q.floor ≠ 1 := by
    intro heq
    rw [heq] at hint
    cases hint
  rw [powerWithin_succ, powerStep, if_neg (by simp [isZero, isOne, hzero, h.base_ne_one]),
    if_neg (by simp [isOne, hone])]
  exact constantPower_of_not_splits (not_splits_fraction bounds b q)

/-- All fuels beyond the depth of the base agree. -/
theorem powerWithin_agree {fuel fuel' : Nat} {base : Expr} (h : base.depth < fuel)
    (h' : base.depth < fuel') (exponent : Expr) :
    powerWithin bounds fuel base exponent = powerWithin bounds fuel' base exponent ∧
      ∀ r, powerWithin bounds fuel base exponent = .ok r → BasesWithin base.depth r := by
  have hdepth := one_le_depth base
  obtain ⟨k, rfl⟩ : ∃ k, fuel = k + 2 := ⟨fuel - 2, by omega⟩
  obtain ⟨k', rfl⟩ : ∃ k', fuel' = k' + 2 := ⟨fuel' - 2, by omega⟩
  have hagree : Agree bounds base.depth (powerWithin bounds (k + 1))
      (powerWithin bounds (k' + 1)) := by
    refine ⟨fun b e hb => ?_, fun b e r hb hr => ?_, fun b q hs => ?_⟩
    · exact (powerWithin_agree (by omega) (by omega) e).1
    · have hb' : b.depth < k' + 1 := by omega
      exact (powerWithin_agree (by omega) hb' e).2 r hr
    · exact ⟨powerWithin_fraction k hs, powerWithin_fraction k' hs⟩
  exact ⟨hagree.powerStep exponent, fun r hr => hagree.basesWithin hr⟩
termination_by base.depth

theorem agree_power {d fuel : Nat} (hd : d ≤ fuel) (hfuel : 1 ≤ fuel) :
    Agree bounds d (powerWithin bounds fuel) (power bounds) where
  eq b e hb := (powerWithin_agree (by omega) (by omega) e).1
  within b e r hb hr := by
    have hb' : b.depth < b.depth + 1 := by omega
    exact (powerWithin_agree (by omega) hb' e).2 r hr
  fraction b q hs := by
    obtain ⟨k, rfl⟩ : ∃ k, fuel = k + 1 := ⟨fuel - 1, by omega⟩
    exact ⟨powerWithin_fraction k hs, powerWithin_fraction _ hs⟩

/-! ## The rules without fuel -/

/-- The rule for powers without fuel. -/
theorem power_eq (base exponent : Expr) :
    power bounds base exponent = powerStep bounds (power bounds) base exponent :=
  (agree_power le_rfl (one_le_depth base)).powerStep exponent

theorem power_one (base : Expr) : power bounds base .one = .ok base := by
  rw [power_eq]
  unfold powerStep
  cases hone : base.isOne with
  | true =>
    rw [eq_one_of_isOne hone]
    rfl
  | false => rfl

theorem power_zero (base : Expr) : power bounds base .zero = .ok .one := by
  rw [power_eq]
  rfl

theorem power_outcome {base exponent r : Expr} (h : power bounds base exponent = .ok r) :
    PowerOutcome bounds (power bounds) base exponent (.ok r) :=
  outcome_of_eq_ok (by rw [← power_eq]; exact h)

/-- The bases of a power are no deeper than its base. -/
theorem basesWithin_power {base exponent r : Expr} (h : power bounds base exponent = .ok r) :
    BasesWithin base.depth r :=
  (agree_power le_rfl (one_le_depth base)).basesWithin h

theorem power_fraction {b q : Rat} (h : Splits bounds b q) :
    power bounds (.constant b) (.constant (q - q.floor)) = basicPower bounds b (q - q.floor) :=
  powerWithin_fraction _ h

/-- The rule for products without fuel. -/
theorem multiply_eq (factors : List Expr) :
    multiply bounds factors = multiplyWith (power bounds) factors := by
  have hagree : Agree bounds ((Expr.mul factors).depth + 1)
      (powerWithin bounds ((Expr.mul factors).depth + 1)) (power bounds) :=
    agree_power le_rfl (by omega)
  refine hagree.multiplyWith fun f hf => ⟨f.depth, ?_, basesWithin_depth f⟩
  have : f.depth < (Expr.mul factors).depth := depth_lt_of_mem_children hf
  omega

/-- Constants are multiplied, without a power being asked for. -/
theorem multiplyWith_constants (P : Expr → Expr → Except Error Expr) (qs : List Rat) :
    multiplyWith P (qs.map .constant) = .ok (.constant qs.prod) := by
  have hfold : ∀ product : PowerProduct, (factorsList (qs.map .constant)).foldl
      PowerProduct.addFactor product = ⟨product.coefficient * qs.prod, product.powers⟩ := by
    induction qs with
    | nil => simp [factorsList]
    | cons q qs ih =>
      intro product
      simp [factorsList, factors, PowerProduct.addFactor, ih, mul_assoc]
  have hparts : PowerProduct.ofFactors (qs.map .constant) = ⟨qs.prod, []⟩ := by
    rw [PowerProduct.ofFactors, hfold, PowerProduct.one, one_mul]
  unfold multiplyWith
  dsimp only
  rw [hparts]
  by_cases hzero : qs.prod = 0
  · rw [if_pos hzero, hzero]
    rfl
  · rw [if_neg hzero]
    show Except.ok (assemble (qs.prod * 1) []) = _
    rw [mul_one, assemble, if_neg hzero]

theorem multiply_all_constants (qs : List Rat) :
    multiply bounds (qs.map .constant) = .ok (.constant qs.prod) :=
  (multiply_eq _).trans (multiplyWith_constants _ qs)

theorem multiply_constants (c d : Rat) :
    multiply bounds [.constant d, .constant c] = .ok (.constant (d * c)) := by
  simpa using multiply_all_constants [d, c]

end Canonical

end ClosedForm
