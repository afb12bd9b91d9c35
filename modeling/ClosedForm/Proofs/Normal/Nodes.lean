import ClosedForm.Proofs.Idempotence

/-!
# The nodes of canonical forms

What the later stages may rely on when they read a canonical form, spelled out for each kind of
node: `SumNode` for the terms of a sum, `ProductNode` for the factors of a product, `PowerNode`
for a power and `CallNode` for a function of one argument. `NodeShape` is the one of them that
applies to a node.

`Normal.nodeShape` reads these shapes off a normal expression, and since canonical forms are
normal, every node of a canonical form has its shape (`Session.nodeShape_of_canonicalize`).
-/

namespace ClosedForm

open ClosedForm.Expr

namespace Expr

/-- Every expression stands strictly before the ones after it. -/
def StrictlyAscending (es : List Expr) : Prop :=
  es.Pairwise fun a b => compare a b = .lt

theorem compare_eq_lt {a b : Expr} (h : le a b) (hne : a ≠ b) : compare a b = .lt := by
  unfold le at h
  cases hcompare : compare a b with
  | lt => rfl
  | eq => exact absurd (eq_of_compare hcompare) hne
  | gt =>
    rw [hcompare] at h
    cases h

/-- An ascending list of different expressions is strictly ascending. -/
theorem Ascending.strictly {es : List Expr} (h : Ascending es) (hnodup : es.Nodup) :
    StrictlyAscending es :=
  (List.pairwise_and_iff.mpr ⟨h, hnodup⟩).imp fun hab => compare_eq_lt hab.1 hab.2

end Expr

namespace Canonical

/-! ## Shapes -/

/-- The terms of a canonical sum. The parts without coefficient are those that a linear form keeps
its coefficients for. -/
structure SumNode (terms : List Expr) : Prop where
  two_le : 2 ≤ terms.length
  not_add : ∀ t ∈ terms, t.isAdd = false
  ascending : StrictlyAscending terms
  constant_first : ∀ t ∈ terms.tail, t.isConstant = false
  constant_ne_zero : ∀ c, .constant c ∈ terms → c ≠ 0
  parts_nodup : (terms.map fun t => t.splitCoefficient.2).Nodup
  parts_not_add : ∀ t ∈ terms, t.splitCoefficient.2.isAdd = false

/-- The factors of a canonical product. The coefficient in front is no base, so that `2*2^(1/2)` is
a canonical product. -/
structure ProductNode (factors : List Expr) : Prop where
  two_le : 2 ≤ factors.length
  not_mul : ∀ f ∈ factors, f.isMul = false
  ascending : StrictlyAscending factors
  constant_first : ∀ f ∈ factors.tail, f.isConstant = false
  constant_ne : ∀ c, .constant c ∈ factors → c ≠ 0 ∧ c ≠ 1
  bases_nodup : ((factors.filter fun f => !f.isConstant).map factorBase).Nodup
  not_scaled_sum : ∀ c terms, factors ≠ [.constant c, .add terms]

/-- The base and the exponent of a canonical power. -/
structure PowerNode (base exponent : Expr) : Prop where
  exponent_ne_zero : exponent ≠ .zero
  exponent_ne_one : exponent ≠ .one
  base_ne_one : base ≠ .one
  base_of_integer : ∀ n, exponent = .constant n → Rational.isInteger n = true →
    (∀ b e, base ≠ .pow b e) ∧ base.isMul = false ∧ base ≠ .imaginaryUnit

/-- A canonical function and its argument. -/
structure CallNode (f : Func) (argument : Expr) : Prop where
  trigonometric : f = .sin ∨ f = .cos ∨ f = .tan →
    argument ≠ .zero ∧ 0 ≤ argument.splitCoefficient.1
  not_exp_ln : f = .exp → argument ≠ .zero ∧ ∀ u, argument ≠ .call .ln u
  not_ln_exp : f = .ln → argument ≠ .one ∧ ∀ u, argument ≠ .call .exp u

/-- The shape that a node of a canonical form has. The imaginary unit is the only function without
an argument. -/
def NodeShape : Expr → Prop
  | .constant _ | .symbol _ => True
  | .add terms => SumNode terms
  | .mul factors => ProductNode factors
  | .pow base exponent => PowerNode base exponent
  | .function f [] => f = .imaginaryUnit
  | .function f [argument] => CallNode f argument
  | .function _ _ => False

/-! ## Normal expressions have the shapes -/

variable {bounds : Bounds}

theorem Normal.isAdd_splitCoefficient {t : Expr} (h : Normal bounds t) (hadd : t.isAdd = false) :
    t.splitCoefficient.2.isAdd = false := by
  cases hconstant : t.isConstant with
  | true =>
    obtain ⟨c, rfl⟩ := isConstant_iff.mp hconstant
    rfl
  | false =>
    obtain ⟨c, gs, -, hshape, -, rfl⟩ := h.exists_term hconstant hadd
    rw [hshape.splitCoefficient_term]
    exact hshape.isAdd_product

/-- Two constants have the same part, the one without coefficient. -/
theorem SumShape.isConstant_of_mem_tail {ts : List Expr} (h : SumShape ts) {t : Expr}
    (ht : t ∈ ts.tail) : t.isConstant = false := by
  by_contra hconstant
  rw [Bool.not_eq_false] at hconstant
  obtain ⟨c, rfl⟩ := isConstant_iff.mp hconstant
  have hascending := h.ascending
  have hdistinct := h.distinct
  match ts, ht with
  | first :: rest, ht =>
    have hfirst := hascending.isConstant_head (List.mem_cons_of_mem first ht)
    obtain ⟨d, rfl⟩ := isConstant_iff.mp hfirst
    rw [List.map_cons, List.nodup_cons] at hdistinct
    exact hdistinct.1 (List.mem_map.mpr ⟨_, ht, rfl⟩)

theorem SumShape.sumNode {ts : List Expr} (h : SumShape ts) (hts : ∀ t ∈ ts, Normal bounds t) :
    SumNode ts where
  two_le := h.two_le
  not_add := h.not_add
  ascending := h.ascending.strictly (List.Nodup.of_map _ h.distinct)
  constant_first _ ht := h.isConstant_of_mem_tail ht
  constant_ne_zero c hc hzero := h.not_zero (by rwa [hzero] at hc)
  parts_nodup := h.distinct
  parts_not_add t ht := (hts t ht).isAdd_splitCoefficient (h.not_add t ht)

theorem FactorShape.filter_withFactor {c : Rat} {gs : List Expr} (h : FactorShape gs) :
    ((withFactor c gs).filter fun f => !f.isConstant) = gs := by
  have hgs : (gs.filter fun f => !f.isConstant) = gs :=
    List.filter_eq_self.mpr fun g hg => by simp [h.not_constant g hg]
  unfold withFactor
  split
  · exact hgs
  · rw [List.filter_cons_of_neg (by simp), hgs]

theorem FactorShape.productNode {c : Rat} {gs : List Expr} (h : FactorShape gs) (hc : c ≠ 0)
    (hlength : 2 ≤ (withFactor c gs).length) : ProductNode (withFactor c gs) where
  two_le := hlength
  not_mul f hf := by
    rcases mem_withFactor hf with rfl | hf
    · rfl
    · exact h.not_mul f hf
  ascending := by
    have hgs := h.ascending.strictly (List.Nodup.of_map _ h.bases)
    unfold withFactor
    split
    · exact hgs
    · refine List.pairwise_cons.mpr ⟨fun g hg => ?_, hgs⟩
      have hconstant := h.not_constant g hg
      exact compare_eq_lt (constant_le hconstant) fun heq => by simp [← heq] at hconstant
  constant_first f hf := by
    unfold withFactor at hf
    split at hf
    · exact h.not_constant f (List.mem_of_mem_tail hf)
    · exact h.not_constant f hf
  constant_ne d hd := by
    unfold withFactor at hd
    split at hd
    · exact absurd (h.not_constant _ hd) (by simp)
    · next hone =>
      rcases List.mem_cons.mp hd with heq | hd
      · obtain rfl := Expr.constant.inj heq
        exact ⟨hc, hone⟩
      · exact absurd (h.not_constant _ hd) (by simp)
  bases_nodup := by
    rw [h.filter_withFactor]
    exact h.bases
  not_scaled_sum d ts heq := by
    have hfilter := h.filter_withFactor (c := c)
    rw [heq] at hfilter
    exact h.not_sum ts hfilter.symm

theorem PowerShape.powerNode {base exponent : Expr} (h : PowerShape bounds base exponent) :
    PowerNode base exponent := by
  cases h with
  | inert h =>
    refine ⟨h.exponent_ne_zero, h.exponent_ne_one, h.base_ne_one, fun n hn hinteger => ?_⟩
    have hopens := h.not_opens n hn hinteger
    refine ⟨?_, ?_, ?_⟩
    · rintro b e rfl
      exact hopens trivial
    · cases base <;> first | rfl | exact absurd trivial hopens
    · rintro rfl
      exact hopens trivial
  | @kept b q hb hzero hone =>
    exact ⟨fun heq => hzero (Expr.constant.inj heq), fun heq => hone (Expr.constant.inj heq),
      fun heq => hb (Expr.constant.inj heq), fun _ _ _ => by simp [isMul, imaginaryUnit]⟩

theorem CallShape.callNode {f : Func} {argument : Expr} (h : CallShape f argument) :
    CallNode f argument where
  trigonometric hf := by
    refine ⟨?_, h.no_sign hf⟩
    rintro rfl
    have hvalue := h.no_value
    rcases hf with rfl | rfl | rfl <;> simp [specialValue?, Expr.zero, isZero] at hvalue
  not_exp_ln hf := by
    subst hf
    have hvalue := h.no_value
    constructor
    · rintro rfl
      simp [specialValue?, Expr.zero, isZero] at hvalue
    · rintro u rfl
      simp [specialValue?, Expr.call, isZero] at hvalue
  not_ln_exp hf := by
    subst hf
    have hvalue := h.no_value
    constructor
    · rintro rfl
      simp [specialValue?, Expr.one, isOne] at hvalue
    · rintro u rfl
      simp [specialValue?, Expr.call, isOne] at hvalue

/-- A normal expression has the shape that its kind of node asks for. -/
theorem Normal.nodeShape {e : Expr} (h : Normal bounds e) : NodeShape e := by
  cases h with
  | constant => trivial
  | symbol => trivial
  | add hts h => exact h.sumNode hts
  | mul hc _ h hlength => exact h.productNode hc hlength
  | pow _ _ h => exact h.powerNode
  | imaginaryUnit => exact rfl
  | call _ h => exact h.callNode

end Canonical

namespace Session

open Canonical

variable {bounds : Bounds}

/-- Every node of a canonical form that a reachable session answers with has its shape. -/
theorem nodeShape_of_canonicalize {session later : Session} (hsession : session.Reachable bounds)
    {handle result : Handle} (h : session.answer (canonicalize handle) = (.ok result, later)) :
    ∀ s, Subexpr s (later.pool.expr result) → NodeShape s :=
  fun _ hs => ((normal_of_answer hsession h).of_subexpr hs).nodeShape

/-- The canonical form of `x*sqrt(8) + sin(-x)` has a sum, products, a power and a function. -/
theorem nodeShape_of_text :
    ∃ (session later : Session) (handle result : Handle), session.Reachable {} ∧
      session.answer (canonicalize handle) = (.ok result, later) ∧
      later.pool.expr result = .add [.mul [.constant (-1), .call .sin (.symbol "x")],
        .mul [.constant 2, .symbol "x", .pow (.constant 2) (.constant (1 / 2))]] ∧
      ∀ s, Subexpr s (later.pool.expr result) → NodeShape s := by
  have hread : Formula.read "x*sqrt(8) + sin(-x)" =
      .ok (.add [.mul [.symbol "x", .pow (.constant 8) (.constant (1 / 2))],
        .call .sin (.mul [.constant (-1), .symbol "x"])]) := by
    cbv
  have hpass : pass {} .empty (.add [.mul [.symbol "x", .pow (.constant 8) (.constant (1 / 2))],
      .call .sin (.mul [.constant (-1), .symbol "x"])]) =
      .ok (.add [.mul [.constant (-1), .call .sin (.symbol "x")],
        .mul [.constant 2, .symbol "x", .pow (.constant 2) (.constant (1 / 2))]]) := by
    cbv
  have hfixed : pass {} .empty (.add [.mul [.constant (-1), .call .sin (.symbol "x")],
        .mul [.constant 2, .symbol "x", .pow (.constant 2) (.constant (1 / 2))]]) =
      .ok (.add [.mul [.constant (-1), .call .sin (.symbol "x")],
        .mul [.constant 2, .symbol "x", .pow (.constant 2) (.constant (1 / 2))]]) := by
    cbv
  obtain ⟨session, later, handle, result, hreachable, -, hanswer, hresult⟩ :=
    exists_canonicalize_text hread (canonicalize_of_pass (by decide) hpass hfixed)
  exact ⟨session, later, handle, result, hreachable, hanswer, hresult,
    nodeShape_of_canonicalize hreachable hanswer⟩

/-- The canonical form of `sqrt(8)` is `2*2^(1/2)`: its coefficient is at the same time the base of
its other factor. -/
theorem base_repeated_by_coefficient :
    ∃ (session later : Session) (handle result : Handle), session.Reachable {} ∧
      session.answer (canonicalize handle) = (.ok result, later) ∧
      later.pool.expr result = .mul [.constant 2, .pow (.constant 2) (.constant (1 / 2))] ∧
      ¬ ((later.pool.expr result).children.map factorBase).Nodup := by
  have hread : Formula.read "sqrt(8)" = .ok (.pow (.constant 8) (.constant (1 / 2))) := by
    cbv
  have hrun : ((ClosedForm.canonicalize {} (.pow (.constant 8) (.constant (1 / 2)))).run.run
      .empty).1 = .ok (.mul [.constant 2, .pow (.constant 2) (.constant (1 / 2))]) := by
    cbv
  obtain ⟨session, later, handle, result, hreachable, -, hanswer, hresult⟩ :=
    exists_canonicalize_text hread hrun
  refine ⟨session, later, handle, result, hreachable, hanswer, hresult, ?_⟩
  rw [hresult]
  simp [children, factorBase]

end Session

end ClosedForm
