import ClosedForm.Canonical.Form
import ClosedForm.Proofs.Functions
import ClosedForm.Proofs.Normal.Products
import ClosedForm.Proofs.Settling

/-!
# The rules and normal expressions

The rule for functions makes normal expressions of normal arguments (`normal_apply`). No rule
changes a normal expression (`simplifyNode_normal`), and so one pass with an empty memo leaves
it as it is, with all its subexpressions (`pass_normal`).
-/

namespace ClosedForm.Canonical

open ClosedForm.Expr

variable {bounds : Bounds}

/-! ## Signs -/

/-- A normal expression with a negative coefficient has a normal opposite with a positive one. -/
theorem exists_opposite {e : Expr} (he : Normal bounds e) (hneg : e.splitCoefficient.1 < 0) :
    ∃ p, multiply bounds [.integer (-1), e] = .ok p ∧ Normal bounds p ∧
      0 < p.splitCoefficient.1 := by
  cases hconstant : e.isConstant with
  | true =>
    obtain ⟨c, rfl⟩ := isConstant_iff.mp hconstant
    have hc : c < 0 := hneg
    refine ⟨_, multiply_constants c (-1 : Int), .constant _, ?_⟩
    show (0 : Rat) < (-1 : Int) * c
    rw [Int.cast_neg, Int.cast_one, neg_one_mul]
    exact neg_pos.mpr hc
  | false =>
    cases hadd : e.isAdd with
    | true =>
      cases e with
      | add ts => exact absurd hneg (by simp [Expr.splitCoefficient])
      | _ => cases hadd
    | false =>
      obtain ⟨c, gs, hc, hshape, hgs, rfl⟩ := he.exists_term hconstant hadd
      rw [hshape.splitCoefficient_term] at hneg
      have hminus : ((-1 : Int) : Rat) ≠ 0 := by norm_num
      refine ⟨_, multiply_term hc hminus hgs hshape,
        hshape.normal_term (mul_ne_zero hminus hc) hgs, ?_⟩
      rw [hshape.splitCoefficient_term, Int.cast_neg, Int.cast_one, neg_one_mul]
      exact neg_pos.mpr hneg

theorem isZero_of_coefficient_pos {e : Expr} (h : 0 < e.splitCoefficient.1) :
    e.isZero = false := by
  cases hzero : e.isZero with
  | false => rfl
  | true =>
    rw [eq_zero_of_isZero hzero] at h
    exact absurd h (lt_irrefl 0)

/-! ## The rule for functions -/

theorem normal_specialValue {f : Func} {argument value : Expr} (h : Normal bounds argument)
    (hvalue : SpecialValue f argument value) : Normal bounds value := by
  cases hvalue with
  | sin | tan | ln => exact .constant 0
  | cos | exp => exact .constant 1
  | exp_ln | ln_exp => exact h.of_mem_children (by simp [children])

/-- The trigonometric functions have a special value at zero only. -/
theorem specialValue?_of_not_isZero {f : Func} {argument : Expr}
    (hf : f = .sin ∨ f = .cos ∨ f = .tan) (h : argument.isZero = false) :
    specialValue? f argument = none := by
  rcases hf with rfl | rfl | rfl <;> simp [specialValue?, h]

theorem normal_call {f : Func} {argument : Expr} (h : Normal bounds argument)
    (hf : f = .sin ∨ f = .cos ∨ f = .tan) (hpos : 0 < argument.splitCoefficient.1) :
    Normal bounds (.call f argument) :=
  .call h ⟨by rcases hf with rfl | rfl | rfl <;> simp,
    specialValue?_of_not_isZero hf (isZero_of_coefficient_pos hpos), fun _ => hpos.le⟩

/-- A minus sign in front of a normal function is normal. -/
theorem normal_neg_call {f : Func} {argument r : Expr} (h : Normal bounds (.call f argument))
    (hr : multiply bounds [.integer (-1), .call f argument] = .ok r) : Normal bounds r := by
  have hshape : FactorShape [Expr.call f argument] := factorShape_singleton rfl rfl rfl
  have hminus : ((-1 : Int) : Rat) ≠ 0 := by norm_num
  have hgs : ∀ g ∈ [Expr.call f argument], Normal bounds g := by simpa using h
  have hproduct := multiply_term one_ne_zero hminus hgs hshape
  rw [withFactor_one] at hproduct
  obtain rfl := Except.ok.inj (hr.symm.trans hproduct)
  exact hshape.normal_term (mul_ne_zero hminus one_ne_zero) hgs

/-- A function of normal arguments becomes normal. -/
theorem normal_apply {f : Func} {arguments : List Expr} {r : Expr}
    (h : ∀ a ∈ arguments, Normal bounds a) (hr : apply bounds f arguments = .ok r) :
    Normal bounds r := by
  have houtcome := hr ▸ apply_outcome bounds f arguments
  generalize hresult : Except.ok r = result at houtcome
  cases houtcome with
  | unit =>
    cases hresult
    exact .imaginaryUnit
  | special hvalue =>
    cases hresult
    exact normal_specialValue (h _ (by simp)) hvalue
  | kept hunit hvalue hsign =>
    cases hresult
    exact .call (h _ (by simp)) ⟨hunit, hvalue, hsign⟩
  | @even argument hsign =>
    obtain ⟨positive, hpositive, hnormal, hpos⟩ := exists_opposite (h argument (by simp)) hsign
    rw [hpositive] at hresult
    cases hresult
    exact normal_call hnormal (.inr (.inl rfl)) hpos
  | @odd _ argument hodd hsign =>
    obtain ⟨positive, hpositive, hnormal, hpos⟩ := exists_opposite (h argument (by simp)) hsign
    rw [hpositive] at hresult
    exact normal_neg_call (normal_call hnormal (hodd.imp_right .inr) hpos) hresult.symm
  | arity => cases hresult

theorem apply_of_shape {f : Func} {argument : Expr} (h : CallShape f argument) :
    apply bounds f [argument] = .ok (.call f argument) := by
  have houtcome := apply_outcome bounds f [argument]
  generalize apply bounds f [argument] = result at houtcome
  cases houtcome with
  | unit => exact absurd rfl h.not_unit
  | special hvalue => cases h.no_value.symm.trans hvalue.eq_some
  | kept => rfl
  | even hsign => exact absurd (h.no_sign (.inr (.inl rfl))) (not_le.mpr hsign)
  | odd hodd hsign => exact absurd (h.no_sign (hodd.imp_right .inr)) (not_le.mpr hsign)
  | arity _ hlength => exact absurd rfl hlength

/-! ## All rules -/

/-- No rule changes a normal expression. -/
theorem simplifyNode_normal {e : Expr} (h : Normal bounds e) : simplifyNode bounds e = .ok e := by
  cases h with
  | constant => rfl
  | symbol => rfl
  | add hts h =>
    show Except.ok (Canonical.add _) = _
    rw [add_of_shape hts h]
  | @mul c gs hc hgs h hlength =>
    show multiply bounds (withFactor c gs) = _
    rw [multiply_of_shape hc hgs h]
    match hfs : withFactor c gs with
    | [] => simp [hfs] at hlength
    | [_] => simp [hfs] at hlength
    | _ :: _ :: _ => rfl
  | pow _ _ h => exact power_of_shape h
  | imaginaryUnit => rfl
  | call _ h => exact apply_of_shape h

/-- A pass leaves a normal expression as it is, whatever it takes from the memo: with the rules
alone, or with a memo that has nothing else for its subexpressions. -/
theorem pass_normal {memo : Memo} {e : Expr} (h : Normal bounds e)
    (hmemo : ∀ s, Normal bounds s → ∀ d, memo.find? s = some d → d = s) :
    pass bounds memo e = .ok e := by
  induction e using Expr.induction with
  | node e ih =>
    have hchildren : e.children.mapM (pass bounds memo) = .ok e.children := by
      rw [mapM_eq_ok, List.forall₂_same]
      exact fun c hc => ih c hc (h.of_mem_children hc)
    rw [pass_eq, hchildren]
    show passStep bounds memo e e.children = .ok e
    cases hfind : memo.find? e with
    | some d => rw [passStep_of_find hfind, hmemo e h d hfind]
    | none => rw [passStep_of_not_find hfind, withChildren_children, simplifyNode_normal h]

end ClosedForm.Canonical
