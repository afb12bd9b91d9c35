import ClosedForm.Proofs.Functions
import ClosedForm.Proofs.Reachable
import ClosedForm.Proofs.Settling
import ClosedForm.Proofs.Value.Complex
import ClosedForm.Proofs.Value.Powers
import Mathlib

/-!
# Canonical forms keep values

The rule for functions keeps values (`yields_apply`), hence so does every rule
(`yields_simplifyNode`), a pass over a memo whose entries keep values (`yields_pass`), and
canonicalization with every reachable memo (`Memo.Reachable.keepsValue`). In the end
`canonicalize_value` says it of the handles of a reachable session.
-/

namespace ClosedForm

variable {K : Type*} [Field K] [CharZero K] {M : Interpretation K} {σ : String → K}
  {bounds : Bounds}

open Interpretation

namespace Canonical

/-! ## Functions -/

theorem value_specialValue {f : Func} {argument result : Expr} {x : K}
    (hspecial : SpecialValue f argument result)
    (h : M.value σ (.function f [argument]) = some x) : M.value σ result = some x := by
  rw [value_function, Option.bind_eq_some_iff] at h
  obtain ⟨y, hy, hx⟩ := h
  cases hspecial with
  | sin =>
    rw [value_zero, Option.some.injEq] at hy
    subst hy
    rw [M.sin_zero x hx, value_zero]
  | cos =>
    rw [value_zero, Option.some.injEq] at hy
    subst hy
    rw [M.cos_zero x hx, value_one]
  | tan =>
    rw [value_zero, Option.some.injEq] at hy
    subst hy
    rw [M.tan_zero x hx, value_zero]
  | exp =>
    rw [value_zero, Option.some.injEq] at hy
    subst hy
    rw [M.exp_zero x hx, value_one]
  | ln =>
    rw [value_one, Option.some.injEq] at hy
    subst hy
    rw [M.ln_one x hx, value_zero]
  | @exp_ln u rest =>
    cases rest with
    | nil =>
      rw [value_function, Option.bind_eq_some_iff] at hy
      obtain ⟨z, hz, hln⟩ := hy
      rw [M.exp_ln z y x hln hx, hz]
    | cons => simp [value] at hy
  | @ln_exp u rest =>
    cases rest with
    | nil =>
      rw [value_function, Option.bind_eq_some_iff] at hy
      obtain ⟨z, hz, hexp⟩ := hy
      rw [M.ln_exp z y x hexp hx, hz]
    | cons => simp [value] at hy

theorem value_minusOne : M.value σ (.integer (-1)) = some (-1) := by
  rw [Expr.integer, value_constant]
  norm_num

theorem yields_opposite (bounds : Bounds) {e : Expr} {x : K} (h : M.value σ e = some x) :
    Yields M σ bounds (multiply bounds [.integer (-1), e]) (-x) := by
  refine yields_multiply (productValue_cons_eq_some.mpr ⟨-1, x, value_minusOne, ?_, by ring⟩)
  exact productValue_cons_eq_some.mpr ⟨x, 1, h, by rw [productValue], mul_one x⟩

/-- The rule for functions yields the value of the function. -/
theorem yields_apply {f : Func} {arguments : List Expr} {x : K}
    (h : M.value σ (.function f arguments) = some x) :
    Yields M σ bounds (apply bounds f arguments) x := by
  have houtcome := apply_outcome bounds f arguments
  generalize apply bounds f arguments = result at houtcome
  cases houtcome with
  | unit =>
    rcases arguments with _ | ⟨_, _ | _⟩
    · exact h
    · simp [value_function, Option.bind_eq_some_iff, Interpretation.apply] at h
    · simp [value] at h
  | special hvalue => exact value_specialValue hvalue h
  | kept => exact h
  | even =>
    rw [value_function, Option.bind_eq_some_iff] at h
    obtain ⟨y, hy, hx⟩ := h
    refine (yields_opposite bounds hy).bind fun positive hpositive => ?_
    show M.value σ (.call .cos positive) = some x
    rw [Expr.call, value_function, hpositive]
    exact M.cos_neg (-y) x (by rw [neg_neg]; exact hx)
  | odd hodd =>
    rw [value_function, Option.bind_eq_some_iff] at h
    obtain ⟨y, hy, hx⟩ := h
    -- An odd function of the opposite argument has the opposite value.
    have hneg : M.apply f (- -y) = some x → M.apply f (-y) = some (-x) := by
      rcases hodd with rfl | rfl
      · exact M.sin_neg (-y) x
      · exact M.tan_neg (-y) x
    refine (yields_opposite bounds hy).bind fun positive hpositive => ?_
    have hcall : M.value σ (.call f positive) = some (-x) := by
      rw [Expr.call, value_function, hpositive]
      exact hneg (by rw [neg_neg]; exact hx)
    have hyields := yields_opposite bounds hcall
    rwa [neg_neg] at hyields
  | arity hunit hlength =>
    -- Functions of other numbers of arguments have no values.
    rcases arguments with _ | ⟨_, _ | _⟩
    · cases f with
      | imaginaryUnit => exact absurd rfl hunit
      | _ => simp [value] at h
    · exact absurd rfl hlength
    · simp [value] at h

/-! ## Passes -/

/-- Every rule yields the value of the node. -/
theorem yields_simplifyNode {e : Expr} {x : K} (h : M.value σ e = some x) :
    Yields M σ bounds (simplifyNode bounds e) x := by
  cases e with
  | constant | symbol => exact h
  | add terms => exact value_add_rule (by rw [← value_add]; exact h)
  | mul factors => exact yields_multiply (by rw [← value_mul]; exact h)
  | pow base exponent => exact yields_powers base exponent h
  | function f arguments => exact yields_apply h

/-- The expression `c` has the value of `e` wherever `e` has one. -/
def KeepsValue (M : Interpretation K) (σ : String → K) (e c : Expr) : Prop :=
  ∀ x, M.value σ e = some x → M.value σ c = some x

theorem sumValue_of_keepsValue {es cs : List Expr} (h : List.Forall₂ (KeepsValue M σ) es cs)
    {x : K} (hx : M.sumValue σ es = some x) : M.sumValue σ cs = some x := by
  induction h generalizing x with
  | nil => exact hx
  | cons hec _ ih =>
    obtain ⟨y, z, hy, hz, rfl⟩ := sumValue_cons_eq_some.mp hx
    exact sumValue_cons_eq_some.mpr ⟨y, z, hec y hy, ih hz, rfl⟩

theorem productValue_of_keepsValue {es cs : List Expr}
    (h : List.Forall₂ (KeepsValue M σ) es cs) {x : K} (hx : M.productValue σ es = some x) :
    M.productValue σ cs = some x := by
  induction h generalizing x with
  | nil => exact hx
  | cons hec _ ih =>
    obtain ⟨y, z, hy, hz, rfl⟩ := productValue_cons_eq_some.mp hx
    exact productValue_cons_eq_some.mpr ⟨y, z, hec y hy, ih hz, rfl⟩

/-- Children that keep their values keep the value of the node. -/
theorem keepsValue_withChildren {e : Expr} {cs : List Expr}
    (h : List.Forall₂ (KeepsValue M σ) e.children cs) : KeepsValue M σ e (e.withChildren cs) := by
  intro x hx
  cases e with
  | constant | symbol => exact hx
  | add terms =>
    rw [value_add] at hx
    exact (value_add cs).trans (sumValue_of_keepsValue h hx)
  | mul factors =>
    rw [value_mul] at hx
    exact (value_mul cs).trans (productValue_of_keepsValue h hx)
  | pow base exponent =>
    obtain ⟨b, u, hb, hu, hpow⟩ := value_pow_eq_some.mp hx
    cases h with
    | cons hbase hrest =>
      cases hrest with
      | cons hexponent hrest =>
        cases hrest
        exact value_pow_eq_some.mpr ⟨b, u, hbase b hb, hexponent u hu, hpow⟩
  | function f arguments =>
    cases arguments with
    | nil =>
      cases h
      exact hx
    | cons argument rest =>
      cases rest with
      | nil =>
        cases h with
        | @cons _ c _ _ hc hrest =>
          cases hrest
          rw [value_function, Option.bind_eq_some_iff] at hx
          obtain ⟨y, hy, hfy⟩ := hx
          show M.value σ (.function f [c]) = some x
          rw [value_function, hc y hy]
          exact hfy
      | cons => cases f <;> simp [value] at hx

/-- With a memo whose entries keep values, a pass yields the value of the expression. -/
theorem yields_pass (bounds : Bounds) {memo : Memo}
    (hmemo : ∀ e c, memo.find? e = some c → KeepsValue M σ e c) (e : Expr) {x : K}
    (h : M.value σ e = some x) : Yields M σ bounds (pass bounds memo e) x := by
  induction e using Expr.induction generalizing x with
  | node e ih =>
    have hchild : ∀ c ∈ e.children, ∃ y, Yields M σ bounds (pass bounds memo c) y ∧
        M.value σ c = some y := by
      intro c hc
      obtain ⟨y, hy⟩ := value_of_mem_children h hc
      exact ⟨y, ih c hc hy, hy⟩
    rw [pass_eq]
    cases hchildren : e.children.mapM (pass bounds memo) with
    | error err =>
      obtain ⟨c, hc, hfails⟩ := exists_of_mapM_eq_error hchildren
      obtain ⟨y, hy, -⟩ := hchild c hc
      rw [hfails] at hy
      exact hy
    | ok cs =>
      show Yields M σ bounds (passStep bounds memo e cs) x
      cases hfind : memo.find? e with
      | some canonical =>
        rw [passStep_of_find hfind]
        exact hmemo e canonical hfind x h
      | none =>
        rw [passStep_of_not_find hfind]
        refine yields_simplifyNode (keepsValue_withChildren ?_ x h)
        have hresults := mapM_eq_ok.mp hchildren
        refine forall₂_imp_of_mem hresults fun c hc result hresult => ?_
        intro y hy
        have hyields := ih c hc hy
        rw [hresult] at hyields
        exact hyields

/-! ## Canonicalization -/

end Canonical

open Canonical

theorem KeepsValue.refl (e : Expr) : KeepsValue M σ e e :=
  fun _ hx => hx

theorem KeepsValue.trans {a b c : Expr} (hab : KeepsValue M σ a b) (hbc : KeepsValue M σ b c) :
    KeepsValue M σ a c :=
  fun x hx => hbc x (hab x hx)

theorem keepsValue_pass {memo : Memo}
    (hentries : ∀ e c, memo.find? e = some c → KeepsValue M σ e c) (e next : Expr)
    (hpass : pass bounds memo e = .ok next) : KeepsValue M σ e next := by
  intro x hx
  have hyields := yields_pass bounds hentries e hx
  rwa [hpass] at hyields

/-- Every reachable memo has forms that keep values. -/
theorem Memo.Reachable.keepsValue {memo : Memo} (hmemo : memo.Reachable bounds) {e c : Expr}
    (h : memo.find? e = some c) : KeepsValue M σ e c :=
  hmemo.related KeepsValue.refl KeepsValue.trans (fun _ _ => keepsValue_pass) h

/-- The canonical form has the value of the expression, and only too many passes or a refused power
can keep an expression with a value from having a canonical form. -/
theorem canonicalize_run_value {memo : Memo} (hmemo : memo.Reachable bounds) {e : Expr} {x : K}
    (h : M.value σ e = some x) :
    match ((canonicalize bounds e).run.run memo).1 with
    | .ok c => M.value σ c = some x
    | .error err => err = .divergence bounds.maxPasses ∨ err.IsRefusedPower bounds := by
  cases hrun : ((canonicalize bounds e).run.run memo).1 with
  | ok c =>
    have hkeeps : KeepsValue M σ e c :=
      hmemo.related_run KeepsValue.refl KeepsValue.trans (fun _ _ => keepsValue_pass) hrun
    exact hkeeps x h
  | error err =>
    refine (hmemo.error_of_run (R := KeepsValue M σ) KeepsValue.refl KeepsValue.trans
      (fun _ _ => keepsValue_pass) hrun).imp_right fun ⟨t, ht, hfails⟩ => ?_
    have hyields := yields_pass bounds (fun e c he => hmemo.keepsValue he) t (ht x h)
    rwa [hfails] at hyields

theorem Memo.Reachable.keepsValue_run {memo : Memo} (hmemo : memo.Reachable bounds) {e c : Expr}
    (h : ((canonicalize bounds e).run.run memo).1 = .ok c) : KeepsValue M σ e c := by
  intro x hx
  have hvalue := canonicalize_run_value hmemo hx
  rwa [h] at hvalue

namespace Session

/-- Canonicalizing a handle in a reachable session keeps the value: where the expression and all
its subexpressions have values, the canonical form has the value of the expression. Such an
expression is never refused for a division by zero, and with bounds below the largest exponent
only for too many passes, or for an exponent without an absolute value. -/
theorem canonicalize_value {session : Session} (hsession : session.Reachable bounds)
    (handle : Handle) {x : K} (h : M.value σ (session.pool.expr handle) = some x) :
    (∀ result later, session.answer (canonicalize handle) = (.ok result, later) →
      M.value σ (later.pool.expr result) = some x) ∧
    (∀ err later, session.answer (canonicalize handle) = (.error err, later) →
      err ≠ .divisionByZero ∧ (bounds.maxExactExponent < Rational.exponentBound →
        err = .divergence bounds.maxPasses ∨ err = .leastExponent)) := by
  have hspec := canonicalize_spec hsession.consistent handle
  have hvalue := canonicalize_run_value hsession.consistent.memo h
  generalize session.answer (canonicalize handle) = answered at *
  generalize ((ClosedForm.canonicalize bounds (session.pool.expr handle)).run.run
    session.memo).1 = outcome at *
  cases outcome with
  | ok c =>
    obtain ⟨result, hresult, hstands⟩ := hspec
    refine ⟨fun other later hanswer => ?_, fun err later hanswer => ?_⟩
    · rw [hanswer] at hresult hstands
      cases hresult
      rw [hstands.2]
      exact hvalue
    · rw [hanswer] at hresult
      cases hresult
  | error err =>
    refine ⟨fun result later hanswer => ?_, fun other later hanswer => ?_⟩
    · rw [hanswer] at hspec
      cases hspec
    · rw [hanswer] at hspec
      cases hspec
      rcases hvalue with rfl | ⟨n, rfl, rfl | ⟨hlarge, hallowed⟩⟩
      · exact ⟨by simp, fun _ => .inl rfl⟩
      · exact ⟨by simp, fun _ => .inr rfl⟩
      · exact ⟨by simp, fun hlt => absurd (hlarge.trans hallowed) (by omega)⟩

/-- In a session that read `x + sin(x)*0^2` the text has the value `3` where `x` is `3`, with the
functions on the complex numbers, and so has its canonical form. -/
theorem canonicalize_value_text :
    ∃ session : Session, ∃ handle : Handle, session.Reachable {} ∧
      (complex.value (fun _ => 3) (session.pool.expr handle) = some 3) ∧
      (∀ result later, session.answer (canonicalize handle) = (.ok result, later) →
        complex.value (fun _ => 3) (later.pool.expr result) = some 3) := by
  have hread : Formula.read "x + sin(x)*0^2" =
      .ok (.add [.symbol "x", .mul [.call .sin (.symbol "x"),
        .pow (.constant 0) (.constant 2)]]) := by
    cbv
  obtain ⟨handle, -, -, hexpr⟩ := parse_spec (new_consistent {}) hread
  have hreachable : ((new {}).after (.parse "x + sin(x)*0^2")).Reachable {} :=
    .after _ .new (by simp [Operation.handles, Pool.Has])
  have hvalue : complex.value (fun _ => 3)
      (((new {}).after (.parse "x + sin(x)*0^2")).pool.expr handle) = some 3 := by
    have hsquare : complexPower 0 2 = some 0 := by
      simpa using complexPower_int (b := 0) (n := 2) (.inr (by norm_num))
    rw [hexpr]
    simp [value, sumValue, productValue, hsquare, Expr.call, Interpretation.apply, complex]
  exact ⟨_, handle, hreachable, hvalue, (canonicalize_value hreachable handle hvalue).1⟩

end Session

end ClosedForm
