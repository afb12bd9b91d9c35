import ClosedForm.Proofs.Reachable
import ClosedForm.Proofs.Reduction
import ClosedForm.Proofs.Symbols
import ClosedForm.Proofs.Value.Canonical

/-!
# How computations end

`Ends failure success` says of an outcome which failures and which results are possible, and
`Ensures bounds failure success` says it of a computation with any reachable memo. Both follow the
structure of a computation (`Ends.bind`, `Ensures.bind`, `Ensures.mapM`).

`Ensures.canonicalize_of_value` is the specification of canonicalization that later stages build on.
`Ensures.canonicalize` states it for expressions that have a value at every assignment
(`Interpretation.Gives`).
-/

namespace ClosedForm

variable {α β : Type} {failure : Error → Prop} {bounds : Bounds}

/-- A success has the property `success` and a failure the property `failure`. -/
def Ends (failure : Error → Prop) (success : α → Prop) (outcome : Except Error α) : Prop :=
  match outcome with
  | .ok value => success value
  | .error e => failure e

namespace Ends

theorem bind {P : α → Prop} {Q : β → Prop} {outcome : Except Error α} {next : α → Except Error β}
    (h : Ends failure P outcome) (hnext : ∀ value, P value → Ends failure Q (next value)) :
    Ends failure Q (outcome >>= next) := by
  cases outcome with
  | error e => exact h
  | ok value => exact hnext value h

theorem imp {P Q : α → Prop} {outcome : Except Error α} (h : Ends failure P outcome)
    (himp : ∀ value, P value → Q value) : Ends failure Q outcome := by
  cases outcome with
  | error e => exact h
  | ok value => exact himp value h

theorem mono {P : α → Prop} {other : Error → Prop} {outcome : Except Error α}
    (h : Ends failure P outcome) (hfailure : ∀ e, failure e → other e) : Ends other P outcome := by
  cases outcome with
  | error e => exact hfailure e h
  | ok value => exact h

/-- What every step of a fold keeps, the fold keeps. -/
theorem foldlM {P : β → Prop} {step : β → α → Except Error β} {as : List α}
    (h : ∀ a ∈ as, ∀ state, P state → Ends failure P (step state a)) {start : β} (hstart : P start) :
    Ends failure P (as.foldlM step start) := by
  induction as generalizing start with
  | nil => exact hstart
  | cons a as ih =>
    rw [List.foldlM_cons]
    exact (h a (by simp) start hstart).bind fun next hnext => ih (fun b hb => h b (by simp [hb])) hnext

/-- A computation on every element ends well if it does so on each. -/
theorem mapM {R : α → β → Prop} {f : α → Except Error β} {as : List α}
    (h : ∀ a ∈ as, Ends failure (R a) (f a)) : Ends failure (List.Forall₂ R as) (as.mapM f) := by
  induction as with
  | nil => exact .nil
  | cons a as ih =>
    rw [List.mapM_cons]
    refine (h a (by simp)).bind fun b hb => ?_
    refine (ih fun c hc => h c (by simp [hc])).bind fun bs hbs => ?_
    exact .cons hb hbs

/-- Without possible failures there is a success. -/
theorem exists_ok {P : α → Prop} {outcome : Except Error α} (h : Ends (fun _ => False) P outcome) :
    ∃ value, outcome = .ok value ∧ P value := by
  cases outcome with
  | error e => exact h.elim
  | ok value => exact ⟨value, rfl, h⟩

theorem of_eq_ok {P : α → Prop} {outcome : Except Error α} (h : Ends failure P outcome) {value : α}
    (hok : outcome = .ok value) : P value := by
  rwa [hok] at h

/-- Where no failure is possible there is the one success. -/
theorem eq_ok {P : Prop} {value : α} {outcome : Except Error α} (h : Ends (fun _ => P) (· = value) outcome)
    (hP : ¬P) : outcome = .ok value := by
  obtain ⟨result, hresult, rfl⟩ := (h.mono fun _ => hP).exists_ok
  exact hresult

/-- What a success has in any case can be added. -/
theorem and {P Q : α → Prop} {outcome : Except Error α} (h : Ends failure P outcome)
    (hsuccess : ∀ value, outcome = .ok value → Q value) :
    Ends failure (fun value => P value ∧ Q value) outcome := by
  cases outcome with
  | error e => exact h
  | ok value => exact ⟨h, hsuccess value rfl⟩

/-- What a success has for each index it has for all of them. -/
theorem all {ι : Type*} [Nonempty ι] {P : ι → α → Prop} {outcome : Except Error α}
    (h : ∀ i, Ends failure (P i) outcome) : Ends failure (fun value => ∀ i, P i value) outcome := by
  cases outcome with
  | error e => exact h (Classical.arbitrary ι)
  | ok value => exact h

end Ends

/-- With every reachable memo the computation ends as said. -/
def Ensures (bounds : Bounds) (failure : Error → Prop) (success : α → Prop) (action : Memoizing α) :
    Prop :=
  ∀ memo : Memo, memo.Reachable bounds → Ends failure success (action.run.run memo).1

namespace Ensures

theorem pure {P : α → Prop} {value : α} (h : P value) :
    Ensures bounds failure P (Pure.pure value) :=
  fun _ _ => h

theorem throw {P : α → Prop} {e : Error} (h : failure e) :
    Ensures bounds failure P (MonadExcept.throw e) :=
  fun _ _ => h

theorem lift {P : α → Prop} {outcome : Except Error α} (h : Ends failure P outcome) :
    Ensures bounds failure P (liftM outcome) :=
  fun _ _ => h

theorem bind {P : α → Prop} {Q : β → Prop} {action : Memoizing α} {next : α → Memoizing β}
    (hrecording : Recording bounds action) (h : Ensures bounds failure P action)
    (hnext : ∀ value, P value → Ensures bounds failure Q (next value)) :
    Ensures bounds failure Q (action >>= next) := by
  intro memo hmemo
  have hafter := hmemo.grows (hrecording memo)
  have hends := h memo hmemo
  rw [ExceptT.run_bind, StateT.run_bind]
  generalize action.run.run memo = ran at *
  obtain ⟨_ | value, after⟩ := ran
  · exact hends
  · exact hnext value hends after hafter

theorem mono {P : α → Prop} {other : Error → Prop} {action : Memoizing α}
    (h : Ensures bounds failure P action) (hfailure : ∀ e, failure e → other e) :
    Ensures bounds other P action :=
  fun memo hmemo => (h memo hmemo).mono hfailure

/-- After a first stage that ended well with a memo, the second one has the last word. -/
theorem after {P : β → Prop} {action : Memoizing α} {next : α → Memoizing β} {memo middle : Memo}
    {value : α} (hmemo : memo.Reachable bounds) (hrecording : Recording bounds action)
    (hrun : action.run.run memo = (.ok value, middle)) (h : Ensures bounds failure P (next value)) :
    Ends failure P ((action >>= next).run.run memo).1 := by
  have hends := h middle (hrecording.reachable hmemo hrun)
  rw [ExceptT.run_bind, StateT.run_bind, hrun]
  exact hends

/-- A computation on every element ends well if it does so on each. -/
theorem mapM {R : α → β → Prop} {f : α → Memoizing β} {as : List α}
    (hrecording : ∀ a, Recording bounds (f a))
    (h : ∀ a ∈ as, Ensures bounds failure (R a) (f a)) :
    Ensures bounds failure (List.Forall₂ R as) (as.mapM f) := by
  induction as with
  | nil => exact pure .nil
  | cons a as ih =>
    rw [List.mapM_cons]
    refine bind (hrecording a) (h a (by simp)) fun b hb => ?_
    refine bind (.mapM hrecording) (ih fun c hc => h c (by simp [hc])) fun bs hbs => ?_
    exact pure (.cons hb hbs)

end Ensures

/-- Canonicalizing what reduces to a form ends with it. -/
theorem Canonical.Reduces.ensures {e c : Expr} (h : Canonical.Reduces bounds e c)
    (hpasses : 2 ≤ bounds.maxPasses) :
    Ensures bounds (fun _ => False) (fun r => r = c) (ClosedForm.canonicalize bounds e) := by
  intro memo hmemo
  rw [h.canonicalize hpasses hmemo]
  rfl

/-! ## Expressions with a value everywhere -/

variable {K : Type*} [Field K] [CharZero K] {M : Interpretation K}

/-- The value of the expression at every assignment. -/
def Interpretation.Gives (M : Interpretation K) (e : Expr) (f : (String → K) → K) : Prop :=
  ∀ σ, M.value σ e = some (f σ)

namespace Interpretation

variable {σ : String → K}

/-- The sum of two expressions by the rule has the sum of the values. -/
theorem value_add_pair {c d : Expr} {x y : K} (hc : M.value σ c = some x)
    (hd : M.value σ d = some y) : M.value σ (Canonical.add [c, d]) = some (x + y) := by
  refine value_add_rule (sumValue_cons_eq_some.mpr ⟨_, _, hc, ?_, rfl⟩)
  exact sumValue_cons_eq_some.mpr ⟨_, 0, hd, by rw [sumValue], add_zero _⟩

/-- The product of two expressions by the rule has the product of the values, unless a power is
refused. -/
theorem ends_multiply_pair {c d : Expr} {x y : K} (hc : M.value σ c = some x)
    (hd : M.value σ d = some y) :
    Ends (Error.IsRefusedPower bounds) (fun r => M.value σ r = some (x * y))
      (Canonical.multiply bounds [c, d]) := by
  have hyields : Yields M σ bounds (Canonical.multiply bounds [c, d]) (x * y) := by
    refine Canonical.yields_multiply (productValue_cons_eq_some.mpr ⟨_, _, hc, ?_, rfl⟩)
    exact productValue_cons_eq_some.mpr ⟨_, 1, hd, by rw [productValue], mul_one _⟩
  cases hresult : Canonical.multiply bounds [c, d] <;> rwa [hresult] at hyields

theorem Gives.unique {e : Expr} {f g : (String → K) → K} (hf : M.Gives e f) (hg : M.Gives e g) :
    f = g :=
  funext fun σ => Option.some.inj ((hf σ).symm.trans (hg σ))

theorem Gives.constant (c : Rat) : M.Gives (.constant c) fun _ => (c : K) :=
  fun _ => value_constant c

end Interpretation

/-- The failure says something else than that equations contradict each other. -/
def Error.IsRegular (e : Error) : Prop :=
  ∀ row, e ≠ .singularSystem row

theorem Error.IsRefusedPower.isRegular {e : Error} (h : e.IsRefusedPower bounds) : e.IsRegular := by
  obtain ⟨n, rfl, -⟩ := h
  exact fun row => by simp

/-- The canonical form of an expression has the value of the expression. -/
theorem Ensures.canonicalize_of_value {σ : String → K} {e : Expr} {x : K}
    (h : M.value σ e = some x) :
    Ensures bounds Error.IsRegular (fun c => M.value σ c = some x) (canonicalize bounds e) := by
  intro memo hmemo
  have hvalue := canonicalize_run_value hmemo h
  cases hrun : ((ClosedForm.canonicalize bounds e).run.run memo).1 with
  | ok c => rwa [hrun] at hvalue
  | error x =>
    rw [hrun] at hvalue
    rcases hvalue with rfl | hrefused
    · exact fun row => by simp
    · exact hrefused.isRegular

/-- The canonical form of an expression with a value everywhere has the same value, and no symbols
that the expression does not have. -/
theorem Ensures.canonicalize {e : Expr} {f : (String → K) → K} (h : M.Gives e f) :
    Ensures bounds Error.IsRegular (fun c => M.Gives c f ∧ ∀ p, Expr.Over p e → Expr.Over p c)
      (canonicalize bounds e) := by
  intro memo hmemo
  refine (Ends.all fun σ => canonicalize_of_value (h σ) memo hmemo).and fun c hc p => ?_
  exact hmemo.over_run hc

end ClosedForm
