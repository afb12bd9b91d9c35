import ClosedForm.Calculus.Derivative
import ClosedForm.Proofs.Calculus.Elementary
import ClosedForm.Proofs.Calculus.Jets
import ClosedForm.Proofs.Value.Canonical
import Mathlib.Analysis.SpecialFunctions.Log.Basic
import Mathlib.Analysis.SpecialFunctions.Trigonometric.Basic

/-!
# Derivatives and dual numbers

The derivative of an expression has the value that `ε` has as a factor in the value of the
expression at `x + ε` (`Session.differentiate_dual`).

The derivative is built from the canonical form by the sum, product, power and chain rules, and each
of them computes the part with `ε` of what the node computes on dual numbers
(`Derivative.eval_ofCanonical`). The canonical form has the dual number of the expression because
the rules keep values on the field that the power series embed into (`Analysis.dual_run`), and the
canonical form of the derivative has its value for the same reason (`Analysis.functions_run`).
-/

namespace ClosedForm

open ClosedForm.Expr Canonical
open PowerSeries (C X constantCoeff)

/-! ## Sums and products -/

namespace Functions

variable {A : Type*} [CommRing A] [Algebra ℚ A] {F : Functions A} {σ : String → A}

theorem eval_zero : F.eval σ .zero = some 0 := by
  simp [Expr.zero]

theorem eval_sum_eq_some {ts : List Expr} {a : A} :
    F.eval σ (.sum ts) = some a ↔ ∃ as, F.Evals σ ts as ∧ as.sum = a := by
  match ts with
  | [] => simp [Expr.sum, eval_zero, Evals]
  | [t] => simp [Expr.sum, Evals, List.forall₂_cons_left_iff]
  | _ :: _ :: _ => exact eval_add_eq_some

theorem eval_product_eq_some {fs : List Expr} {a : A} :
    F.eval σ (.product fs) = some a ↔ ∃ as, F.Evals σ fs as ∧ as.prod = a := by
  match fs with
  | [] => simp [Expr.product, Expr.one, Evals]
  | [f] => simp [Expr.product, Evals, List.forall₂_cons_left_iff]
  | _ :: _ :: _ => exact eval_mul_eq_some

theorem eval_sum_cons {t : Expr} {ts : List Expr} {a b : A} (ht : F.eval σ t = some a)
    (hts : F.eval σ (.sum ts) = some b) : F.eval σ (.sum (t :: ts)) = some (a + b) := by
  obtain ⟨bs, hbs, rfl⟩ := eval_sum_eq_some.mp hts
  exact eval_sum_eq_some.mpr ⟨a :: bs, .cons ht hbs, List.sum_cons⟩

end Functions

namespace Analysis

variable {K : Type*} [Field K] [CharZero K] {A : Analysis K} {σ : String → K} {name : String}

/-- A value on dual numbers is one of the field beside `ε`. -/
theorem functions_eval {e : Expr} {z : DualNumber K} (h : A.dual.eval (nearby σ name) e = some z) :
    A.functions.eval σ e = some z.fst := by
  obtain ⟨a, ha, rfl⟩ := dual_functions.eval (fst_nearby σ name) h
  exact ha

/-- The power rule. -/
theorem dual_power {z w : DualNumber K} {n : ℤ} (hn : n ≠ 0) (h : A.dual.power z n = some w) :
    ∃ y, A.functions.power z.fst (n - 1) = some y ∧ w.snd = n * (y * z.snd) := by
  cases n with
  | ofNat k =>
    obtain ⟨k, rfl⟩ : ∃ m, k = m + 1 := ⟨k - 1, by simp at hn; omega⟩
    cases h
    refine ⟨z.fst ^ k, ?_, ?_⟩
    · rw [show Int.ofNat (k + 1) - 1 = Int.ofNat k by simp]
      rfl
    · rw [TrivSqZeroExt.snd_pow]
      simp
  | negSucc k =>
    obtain ⟨v, hv, rfl⟩ := Option.map_eq_some_iff.mp h
    simp only [dual, Option.ite_none_left_eq_some, Option.some.injEq] at hv
    obtain ⟨hne, rfl⟩ := hv
    refine ⟨z.fst⁻¹ ^ (k + 2), ?_, ?_⟩
    · rw [show Int.negSucc k - 1 = Int.negSucc (k + 1) from rfl]
      simp [Functions.power, functions, hne]
    · rw [TrivSqZeroExt.snd_pow]
      simp [Int.cast_negSucc]
      ring

end Analysis

namespace Derivative

open Analysis

variable {K : Type*} [Field K] [CharZero K] {A : Analysis K} {σ : String → K} {name : String}
  {bounds : Bounds}

theorem ofCanonical_eq (e : Expr) : ofCanonical name e =
    e.children.mapM (ofCanonical name) >>= step name e :=
  foldM_eq e

/-- Differentiating canonicalizes before and after the derivative is built. -/
theorem run_differentiate {memo later : Memo} {e d : Expr} :
    (differentiate bounds e name).run.run memo = (.ok d, later) ↔
      ∃ c middle raw, (canonicalize bounds e).run.run memo = (.ok c, middle) ∧
        ofCanonical name c = .ok raw ∧ (canonicalize bounds raw).run.run middle = (.ok d, later) := by
  constructor
  · intro h
    obtain ⟨c, middle, hc, h⟩ := run_bind_eq_ok.mp h
    obtain ⟨raw, _, hraw, h⟩ := run_bind_eq_ok.mp h
    rw [run_lift] at hraw
    obtain ⟨hderivative, rfl⟩ := Prod.mk.inj hraw
    exact ⟨c, _, raw, hc, hderivative, h⟩
  · rintro ⟨c, middle, raw, hc, hraw, h⟩
    exact run_bind_eq_ok.mpr ⟨c, middle, hc, run_bind_eq_ok.mpr
      ⟨raw, middle, by rw [run_lift, hraw], h⟩⟩

/-- The value of an expression and that of its derivative, as a dual number. -/
def Computes (A : Analysis K) (σ : String → K) (e d : Expr) (z : DualNumber K) : Prop :=
  A.functions.eval σ e = some z.fst ∧ A.functions.eval σ d = some z.snd

/-- Where the derivative is literally `0`, so is its value. -/
theorem Computes.snd_eq_zero {e d : Expr} {z : DualNumber K} (h : Computes A σ e d z)
    (hzero : d.isZero = true) : z.snd = 0 := by
  have hd := h.2
  rw [eq_zero_of_isZero hzero, Functions.eval_zero] at hd
  exact (Option.some.inj hd).symm

theorem computes_zip {cs ds : List Expr} {zs : List (DualNumber K)}
    (hds : List.Forall₂ (fun c d => ofCanonical name c = .ok d) cs ds)
    (hzs : A.dual.Evals (nearby σ name) cs zs)
    (h : ∀ c ∈ cs, ∀ d z, ofCanonical name c = .ok d →
      A.dual.eval (nearby σ name) c = some z → Computes A σ c d z) :
    List.Forall₂ (fun p => Computes A σ p.1 p.2) (cs.zip ds) zs := by
  induction hds generalizing zs with
  | nil =>
    cases hzs
    exact .nil
  | cons hd _ ih =>
    cases hzs with
    | cons hz hzs => exact .cons (h _ (by simp) _ _ hd hz) (ih hzs fun c hc => h c (by simp [hc]))

/-- The product rule, where `before` are the factors already passed. -/
theorem eval_productTerms {before : List Expr} {as : List K}
    (hbefore : A.functions.Evals σ before as) {rest : List (Expr × Expr)}
    {zs : List (DualNumber K)} (hrest : List.Forall₂ (fun p => Computes A σ p.1 p.2) rest zs) :
    A.functions.eval σ (.sum (productTerms before rest)) = some (as.prod * zs.prod.snd) := by
  induction hrest generalizing before as with
  | nil => simpa [productTerms, Expr.sum] using Functions.eval_zero
  | @cons p z rest zs hp hrest ih =>
    obtain ⟨f, d⟩ := p
    have hothers := ih (List.rel_append hbefore (.cons hp.1 .nil))
    rw [List.prod_append, List.prod_singleton] at hothers
    rw [productTerms, List.prod_cons, DualNumber.snd_mul]
    split
    · next hzero =>
      rw [hothers, hp.snd_eq_zero hzero]
      congr 1
      ring
    · have hfirst : A.functions.Evals σ (rest.map Prod.fst) (zs.map TrivSqZeroExt.fst) :=
        List.forall₂_map_left_iff.mpr (List.forall₂_map_right_iff.mpr
          (hrest.imp fun _ _ hq => hq.1))
      have hterm : A.functions.eval σ (.product (d :: before ++ rest.map Prod.fst)) =
          some (z.snd * (as.prod * (zs.map TrivSqZeroExt.fst).prod)) :=
        Functions.eval_product_eq_some.mpr ⟨z.snd :: (as ++ zs.map TrivSqZeroExt.fst),
          .cons hp.2 (List.rel_append hbefore hfirst), by simp⟩
      rw [Functions.eval_sum_cons hterm hothers]
      have hprod : zs.prod.fst = (zs.map TrivSqZeroExt.fst).prod :=
        map_list_prod (TrivSqZeroExt.fstHom K K K) zs
      rw [hprod]
      congr 1
      ring

/-- The power rule for an integer exponent. -/
theorem eval_powerRule {base dBase : Expr} {n : ℤ} (hn : n ≠ 0) {z w : DualNumber K}
    (hbase : Computes A σ base dBase z) (hw : A.dual.power z n = some w) (dExponent : Expr) :
    A.functions.eval σ (powerRule name base (.constant n) dBase dExponent) = some w.snd := by
  obtain ⟨y, hy, hsnd⟩ := dual_power hn hw
  unfold powerRule
  rw [if_neg (by simp [contains, recurse])]
  split
  · next hzero => rw [Functions.eval_zero, hsnd, hbase.snd_eq_zero hzero, mul_zero, mul_zero]
  · have hexponent : (Expr.add [.constant n, .integer (-1)]).integerExponent? = some (n - 1) :=
      integerExponent?_eq_some.mpr (.inr ⟨_, [n, -1], rfl,
        .cons rfl (.cons rfl .nil), by simp; ring⟩)
    have hpow : A.functions.eval σ (.pow base (.add [.constant n, .integer (-1)])) = some y :=
      Functions.eval_pow_eq_some.mpr ⟨z.fst, n - 1, hbase.1, hexponent, hy⟩
    exact Functions.eval_mul_eq_some.mpr ⟨[(n : K), y, z.snd],
      .cons (by simp) (.cons hpow (.cons hbase.2 .nil)), by simp [hsnd]⟩

/-- The derivative of a function at an argument. -/
theorem eval_outer {f : Func} {argument : Expr} {a : K} {t : K × K}
    (ha : A.functions.eval σ argument = some a) (ht : A.expansion f a = some t) :
    A.functions.eval σ (outer argument f) = some t.2 := by
  have hcall {g : Func} (hg : g ≠ .imaginaryUnit) {t : K × K} (ht : A.expansion g a = some t) :
      A.functions.eval σ (.call g argument) = some t.1 := by
    rw [Functions.eval_call hg, ha]
    exact Option.map_eq_some_iff.mpr ⟨t, ht, rfl⟩
  cases f with
  | sin =>
    cases ht
    exact hcall (by decide) (t := (A.cos a, -A.sin a)) rfl
  | cos =>
    cases ht
    refine Functions.eval_mul_eq_some.mpr ⟨[-1, A.sin a], .cons ?_ (.cons
      (hcall (by decide) (t := (A.sin a, A.cos a)) rfl) .nil), by simp⟩
    simp [Expr.integer]
  | tan =>
    obtain ⟨y, hy, rfl⟩ := Option.map_eq_some_iff.mp ht
    have hne := cos_ne_zero_of_tan hy
    refine Functions.eval_pow_eq_some.mpr ⟨A.cos a, -2,
      hcall (by decide) (t := (A.cos a, -A.sin a)) rfl, integerExponent?_constant (-2), ?_⟩
    rw [show (-2 : ℤ) = Int.negSucc 1 from rfl]
    simp [Functions.power, functions, hne]
  | exp =>
    cases ht
    exact hcall (by decide) (t := (A.exp a, A.exp a)) rfl
  | ln =>
    obtain ⟨y, hy, rfl⟩ := Option.map_eq_some_iff.mp ht
    have hne := ne_zero_of_ln hy
    refine Functions.eval_pow_eq_some.mpr ⟨a, -1, ha, integerExponent?_constant (-1), ?_⟩
    rw [show (-1 : ℤ) = Int.negSucc 0 from rfl]
    simp [Functions.power, functions, hne]
  | imaginaryUnit => cases ht

/-- The chain rule. -/
theorem eval_chainRule {f : Func} {argument dArgument : Expr} {z w : DualNumber K}
    (h : Computes A σ argument dArgument z) (hw : A.dual.apply f z = some w) :
    A.functions.eval σ (chainRule f argument dArgument) = some w.snd := by
  obtain ⟨t, ht, rfl⟩ := Option.map_eq_some_iff.mp hw
  have hf : f ≠ .imaginaryUnit := by
    rintro rfl
    cases ht
  unfold chainRule
  split
  · next hzero =>
    have hzero : dArgument.isZero = true := by simpa [hf] using hzero
    rw [Functions.eval_zero]
    simp [h.snd_eq_zero hzero]
  · exact Functions.eval_mul_eq_some.mpr ⟨[t.2, z.snd],
      .cons (eval_outer h.1 ht) (.cons h.2 .nil), by simp [mul_comm]⟩

/-- The derivative of a canonical expression has the value that belongs to `ε` in the value of the
expression. -/
theorem eval_ofCanonical {e d : Expr} (he : Normal bounds e) {z : DualNumber K}
    (hz : A.dual.eval (nearby σ name) e = some z) (hd : ofCanonical name e = .ok d) :
    A.functions.eval σ d = some z.snd := by
  induction e using Expr.induction generalizing d z with
  | node e ih =>
    rw [ofCanonical_eq] at hd
    obtain ⟨ds, hds, hd⟩ := bind_eq_ok.mp hd
    have hall := mapM_eq_ok.mp hds
    have hcomputes : ∀ c ∈ e.children, ∀ d z, ofCanonical name c = .ok d →
        A.dual.eval (nearby σ name) c = some z → Computes A σ c d z :=
      fun c hc d z hd hz => ⟨functions_eval hz, ih c hc (he.of_mem_children hc) hz hd⟩
    cases e with
    | constant c =>
      cases hd
      cases hz
      rw [Functions.eval_zero, ← RingHom.map_rat_algebraMap (TrivSqZeroExt.inlHom K K) c]
      simp
    | symbol other =>
      cases hd
      cases hz
      rw [snd_nearby]
      split <;> simp [Expr.one, Functions.eval_zero]
    | add ts =>
      cases hd
      obtain ⟨zs, hzs, rfl⟩ := Functions.eval_add_eq_some.mp hz
      have hparts := computes_zip hall hzs hcomputes
      refine Functions.eval_sum_eq_some.mpr ⟨zs.map TrivSqZeroExt.snd, ?_,
        (map_list_sum (TrivSqZeroExt.sndHom K K) zs).symm⟩
      rw [← List.map_snd_zip hall.length_eq.ge]
      exact List.forall₂_map_left_iff.mpr (List.forall₂_map_right_iff.mpr
        (hparts.imp fun _ _ hp => hp.2))
    | mul fs =>
      cases hd
      obtain ⟨zs, hzs, rfl⟩ := Functions.eval_mul_eq_some.mp hz
      have hproduct := eval_productTerms .nil (computes_zip hall hzs hcomputes)
      rwa [List.prod_nil, one_mul] at hproduct
    | pow base exponent =>
      obtain ⟨zb, n, hzb, hn, hw⟩ := Functions.eval_pow_eq_some.mp hz
      obtain rfl := eq_constant_of_integerExponent? (he.of_mem_children (by simp [children])) hn
      have hne : n ≠ 0 := by
        rintro rfl
        exact he.exponent_ne_zero (by simp [Expr.zero])
      obtain - | @⟨_, dBase, _, _, hbase, - | @⟨_, dExponent, _, _, -, - | -⟩⟩ := hall
      cases hd
      exact eval_powerRule hne (hcomputes base (by simp [children]) dBase zb hbase hzb) hw _
    | function f arguments =>
      obtain ⟨-, argument, za, rfl, hza, hw⟩ := Functions.eval_function_eq_some.mp hz
      obtain - | @⟨_, dArgument, _, _, hargument, - | -⟩ := hall
      cases hd
      exact eval_chainRule (hcomputes argument (by simp [children]) dArgument za hargument hza) hw

end Derivative

/-! ## Canonical forms -/

namespace Analysis

variable {K : Type*} [Field K] [CharZero K] {A : Analysis K} {σ : String → K} {bounds : Bounds}
  {memo later : Memo} {e c : Expr}

/-- A canonical form has the value of the expression. -/
theorem functions_run (hmemo : memo.Reachable bounds)
    (hrun : (canonicalize bounds e).run.run memo = (.ok c, later)) {a : K}
    (ha : A.functions.eval σ e = some a) : A.functions.eval σ c = some a := by
  obtain ⟨F, _, _, ι, i, hι, hi⟩ := exists_field_of_series K
  obtain ⟨p, hp, rfl⟩ := functions_series.eval (τ := fun name => C (σ name)) (by simp) ha
  obtain ⟨_, hu, rfl⟩ := (series_interpretation hι hi).eval (fun _ => rfl) hp
  have hvalue := canonicalize_run_value hmemo (Interpretation.value_of_eval hu)
  rw [hrun] at hvalue
  have hc := elementary_refines.run hmemo hrun (Functions.elementary_of_eval ha)
  obtain ⟨a, ha', hpa⟩ := (interpretation_functions hι hi).eval (τ := σ) (fun _ => rfl)
    (Interpretation.eval_of_value hc hvalue)
  rw [ha', ← hι hpa, PowerSeries.constantCoeff_C]

/-- A canonical form has the dual number of the expression. -/
theorem dual_run (hmemo : memo.Reachable bounds)
    (hrun : (canonicalize bounds e).run.run memo = (.ok c, later)) {a : K}
    (ha : A.functions.eval σ e = some a) (name : String) :
    ∃ z, A.dual.eval (nearby σ name) e = some z ∧ A.dual.eval (nearby σ name) c = some z := by
  obtain ⟨F, _, _, ι, i, hι, hi⟩ := exists_field_of_series K
  have hseries {e : Expr} (ha : A.functions.eval σ e = some a) :
      ∃ p, A.series.eval (moving σ name) e = some p ∧
        A.dual.eval (nearby σ name) e = some (jet p) ∧
        (interpretation hι A i hi).value (fun other => ι (moving σ name other)) e = some (ι p) := by
    obtain ⟨p, hp, -⟩ := functions_series.eval (constantCoeff_moving σ name) ha
    obtain ⟨_, hz, rfl⟩ := series_dual.eval (jet_moving σ name) hp
    obtain ⟨_, hu, rfl⟩ := (series_interpretation hι hi).eval (fun _ => rfl) hp
    exact ⟨p, hp, hz, Interpretation.value_of_eval hu⟩
  obtain ⟨p, -, hz, hvalue⟩ := hseries ha
  obtain ⟨q, -, hz', hvalue'⟩ := hseries (functions_run hmemo hrun ha)
  have hkept := canonicalize_run_value hmemo hvalue
  rw [hrun] at hkept
  have hpq : p = q := hι (Option.some.inj (hkept.symm.trans hvalue'))
  exact ⟨jet p, hz, hpq ▸ hz'⟩

/-- Differentiating takes the part with `ε` of the dual number of an expression. -/
theorem differentiate_run (hmemo : memo.Reachable bounds) {name : String} {d : Expr}
    (hrun : (differentiate bounds e name).run.run memo = (.ok d, later)) {a : K}
    (ha : A.functions.eval σ e = some a) :
    ∃ z, A.dual.eval (nearby σ name) e = some z ∧ z.fst = a ∧
      A.functions.eval σ d = some z.snd := by
  obtain ⟨c, middle, raw, hc, hderivative, hrun⟩ := Derivative.run_differentiate.mp hrun
  obtain ⟨z, hz, hcz⟩ := dual_run hmemo hc ha name
  refine ⟨z, hz, Option.some.inj ((functions_eval hz).symm.trans ha), ?_⟩
  exact functions_run (Recording.reachable (.canonicalize e) hmemo hc) hrun
    (Derivative.eval_ofCanonical (normal_of_canonicalize hmemo hc) hcz hderivative)

end Analysis

open Classical in
/-- The functions on the reals. -/
noncomputable def Analysis.real : Analysis ℝ where
  sin := Real.sin
  cos := Real.cos
  exp := Real.exp
  tan a := if Real.cos a = 0 then none else some (Real.tan a)
  ln a := if 0 < a then some (Real.log a) else none
  sin_zero := Real.sin_zero
  cos_zero := Real.cos_zero
  exp_zero := Real.exp_zero
  tan_zero y h := by simpa using h.symm
  ln_one y h := by simpa using h.symm
  sin_neg := Real.sin_neg
  cos_neg := Real.cos_neg
  tan_neg a y h := by
    rw [Real.cos_neg, Real.tan_neg] at h
    split at h
    · cases h
    · next hne =>
      cases h
      rw [if_neg hne, neg_neg]
  exp_ln a y h := by
    split at h
    · next hpos =>
      cases h
      exact Real.exp_log hpos
    · cases h
  ln_exp a y h := by simpa [Real.exp_pos] using h.symm
  tan_of_cos_eq_zero a h := if_pos h
  ln_zero := by simp

namespace Session

open Analysis

variable {K : Type*} [Field K] [CharZero K] {σ : String → K} {bounds : Bounds}

/-- Where an expression and all its subexpressions have values, its derivative has the value that
belongs to `ε` in the value of the expression on dual numbers, with `x + ε` for the symbol. -/
theorem differentiate_dual (A : Analysis K) {session later : Session}
    (hsession : session.Reachable bounds) {handle result : Handle} {name : String}
    (hanswer : session.answer (differentiate handle name) = (.ok result, later)) {a : K}
    (ha : A.functions.eval σ (session.pool.expr handle) = some a) :
    ∃ z, A.dual.eval (nearby σ name) (session.pool.expr handle) = some z ∧ z.fst = a ∧
      A.functions.eval σ (later.pool.expr result) = some z.snd := by
  obtain ⟨_, hrun, -, -, rfl⟩ := (differentiate_performs hsession.consistent handle name).of_answer hanswer
  exact differentiate_run hsession.consistent.memo hrun ha

/-- In a session that read `x*exp(x) + tan(x)` the derivative has, where `x` is `0`, the value that
`ε` has as a factor in the value of the text at `ε`. -/
theorem differentiate_dual_text :
    ∃ (session later : Session) (handle result : Handle), session.Reachable {} ∧
      session.pool.expr handle =
        .add [.mul [.symbol "x", .call .exp (.symbol "x")], .call .tan (.symbol "x")] ∧
      session.answer (differentiate handle "x") = (.ok result, later) ∧
      real.functions.eval (fun _ => 0) (session.pool.expr handle) = some 0 ∧
      ∃ z, real.dual.eval (nearby (fun _ => 0) "x") (session.pool.expr handle) = some z ∧
        z.fst = 0 ∧ real.functions.eval (fun _ => 0) (later.pool.expr result) = some z.snd := by
  have hread : Formula.read "x*exp(x) + tan(x)" =
      .ok (.add [.mul [.symbol "x", .call .exp (.symbol "x")], .call .tan (.symbol "x")]) := by
    cbv
  have hrun : ((ClosedForm.differentiate {} (.add [.mul [.symbol "x", .call .exp (.symbol "x")],
      .call .tan (.symbol "x")]) "x").run.run .empty).1 =
      .ok (.add [.call .exp (.symbol "x"), .pow (.call .cos (.symbol "x")) (.constant (-2)),
        .mul [.symbol "x", .call .exp (.symbol "x")]]) := by
    cbv
  have hvalue : real.functions.eval (fun _ => 0)
      (.add [.mul [.symbol "x", .call .exp (.symbol "x")], .call .tan (.symbol "x")]) = some 0 := by
    refine Functions.eval_add_eq_some.mpr ⟨[0, 0], .cons (Functions.eval_mul_eq_some.mpr
      ⟨[0, 1], .cons rfl (.cons ?_ .nil), by simp⟩) (.cons ?_ .nil), by simp⟩ <;>
      simp [Functions.eval_call, functions, expansion, real]
  obtain ⟨session, handle, hreachable, hexpr, hmemo⟩ := exists_parsed {} hread
  rw [← hexpr, ← hmemo] at hrun
  have hends : ∃ result later, session.answer (differentiate handle "x") = (.ok result, later) ∧
      session.Follows {} later ∧ Pool.StandsFor _ result later.pool :=
    (differentiate_performs hreachable.consistent handle "x").of_ok hrun
  obtain ⟨result, later, hanswer, -, -⟩ := hends
  rw [← hexpr] at hvalue
  exact ⟨session, later, handle, result, hreachable, hexpr, hanswer, hvalue,
    differentiate_dual real hreachable hanswer hvalue⟩

end Session

end ClosedForm
