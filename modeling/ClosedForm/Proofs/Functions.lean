import ClosedForm.Canonical.Rules
import ClosedForm.Proofs.Factors

/-!
# What the rule for functions does

A function of one argument has a special value (`SpecialValue`), or its argument has a minus sign that
the rule drops or takes out, or it is left as it is. `apply_outcome` says so, and what the rule keeps is
read off these cases.
-/

namespace ClosedForm.Canonical

open ClosedForm.Expr

variable {bounds : Bounds}

/-- The exact values of functions: at `0` and `1`, and where one function undoes another. -/
inductive SpecialValue : Func → Expr → Expr → Prop
  | sin : SpecialValue .sin .zero .zero
  | cos : SpecialValue .cos .zero .one
  | tan : SpecialValue .tan .zero .zero
  | exp : SpecialValue .exp .zero .one
  | ln : SpecialValue .ln .one .zero
  | exp_ln {u : Expr} {rest : List Expr} : SpecialValue .exp (.function .ln (u :: rest)) u
  | ln_exp {u : Expr} {rest : List Expr} : SpecialValue .ln (.function .exp (u :: rest)) u

theorem SpecialValue.eq_some {f : Func} {argument value : Expr} (h : SpecialValue f argument value) :
    specialValue? f argument = some value := by
  cases h <;> rfl

theorem specialValue_of_eq_some {f : Func} {argument value : Expr}
    (h : specialValue? f argument = some value) : SpecialValue f argument value := by
  unfold specialValue? at h
  cases f with
  | sin | cos | tan =>
    obtain ⟨hzero, h⟩ := Option.ite_none_right_eq_some.mp h
    cases h
    obtain rfl := eq_zero_of_isZero hzero
    constructor
  | exp =>
    dsimp only at h
    split at h
    · next hzero =>
      cases h
      obtain rfl := eq_zero_of_isZero hzero
      exact .exp
    · split at h <;> cases h
      exact .exp_ln
  | ln =>
    dsimp only at h
    split at h
    · next hone =>
      cases h
      obtain rfl := eq_one_of_isOne hone
      exact .ln
    · split at h <;> cases h
      exact .ln_exp
  | imaginaryUnit => cases h

/-- What the rule for functions does with some arguments. -/
inductive ApplyOutcome (bounds : Bounds) : Func → List Expr → Except Error Expr → Prop
  | unit (arguments : List Expr) : ApplyOutcome bounds .imaginaryUnit arguments (.ok .imaginaryUnit)
  | special {f : Func} {argument value : Expr} (h : SpecialValue f argument value) :
    ApplyOutcome bounds f [argument] (.ok value)
  | kept {f : Func} {argument : Expr} (hunit : f ≠ .imaginaryUnit)
      (hvalue : specialValue? f argument = none)
      (hsign : f = .sin ∨ f = .cos ∨ f = .tan → 0 ≤ argument.splitCoefficient.1) :
    ApplyOutcome bounds f [argument] (.ok (.call f argument))
  | even {argument : Expr} (hsign : argument.splitCoefficient.1 < 0) :
    ApplyOutcome bounds .cos [argument]
      (multiply bounds [.integer (-1), argument] >>= fun positive => .ok (.call .cos positive))
  | odd {f : Func} {argument : Expr} (hf : f = .sin ∨ f = .tan)
      (hsign : argument.splitCoefficient.1 < 0) :
    ApplyOutcome bounds f [argument]
      (multiply bounds [.integer (-1), argument] >>= fun positive =>
        multiply bounds [.integer (-1), .call f positive])
  | arity {f : Func} {arguments : List Expr} (hunit : f ≠ .imaginaryUnit)
      (hlength : arguments.length ≠ 1) :
    ApplyOutcome bounds f arguments (.error (.arity f arguments.length))

theorem bind_opposite? {argument : Expr} (next : Option Expr → Except Error Expr) :
    (opposite? bounds argument >>= next) =
      if argument.splitCoefficient.1 < 0 then
        multiply bounds [.integer (-1), argument] >>= fun positive => next (some positive)
      else next none := by
  unfold opposite?
  split
  · exact bind_assoc _ _ _
  · rfl

theorem applyBySymmetry_outcome {f : Func} {argument : Expr} (hunit : f ≠ .imaginaryUnit)
    (hvalue : specialValue? f argument = none) :
    ApplyOutcome bounds f [argument] (applyBySymmetry bounds f argument) := by
  have hkept (hsign : f = .sin ∨ f = .cos ∨ f = .tan → 0 ≤ argument.splitCoefficient.1) :
      ApplyOutcome bounds f [argument] (.ok (.call f argument)) := .kept hunit hvalue hsign
  unfold applyBySymmetry
  cases f with
  | imaginaryUnit => exact absurd rfl hunit
  | cos =>
    dsimp only
    rw [bind_opposite?]
    split
    · next hsign => exact .even hsign
    · next hsign => exact hkept fun _ => not_lt.mp hsign
  | sin =>
    dsimp only
    rw [bind_opposite?]
    split
    · next hsign => exact .odd (.inl rfl) hsign
    · next hsign => exact hkept fun _ => not_lt.mp hsign
  | tan =>
    dsimp only
    rw [bind_opposite?]
    split
    · next hsign => exact .odd (.inr rfl) hsign
    · next hsign => exact hkept fun _ => not_lt.mp hsign
  | exp => exact hkept (by simp)
  | ln => exact hkept (by simp)

/-- What the rule does. -/
theorem apply_outcome (bounds : Bounds) (f : Func) (arguments : List Expr) :
    ApplyOutcome bounds f arguments (apply bounds f arguments) := by
  unfold apply
  split
  · exact .unit _
  · next argument hunit =>
    split
    · next value hvalue => exact .special (specialValue_of_eq_some hvalue)
    · next hvalue => exact applyBySymmetry_outcome hunit hvalue
  · next hunit hone =>
    refine .arity hunit fun hlength => ?_
    obtain ⟨argument, rfl⟩ := List.length_eq_one_iff.mp hlength
    exact hone argument rfl

end ClosedForm.Canonical
