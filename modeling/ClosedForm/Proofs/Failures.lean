import ClosedForm.Proofs.Functions
import ClosedForm.Proofs.Nesting
import ClosedForm.Proofs.Settling

/-!
# How the rules fail

Where functions have as many arguments as they take (`Expr.HasArities`), the rules fail in two ways
only, as long as the powers that they compute have exponents in range (`Bounds.InRange`): by division
by zero, and where they ask for a power of constants with an exponent that has no absolute value among
the 64-bit integers (`Error.IsRuleFailure`). So do passes (`error_of_pass`) and settling.

For this the calls that rules make are followed through (`RuleCall.Calls`): a rule only makes a call if
everything that it does before has succeeded. Which powers are refused says `power_constants_refused_iff`.
-/

namespace ClosedForm

/-- Every function has as many arguments as it takes. -/
inductive Expr.HasArities : Expr → Prop
  | node {e : Expr} (h : ∀ f arguments, e = .function f arguments → arguments.length = f.arity)
      (hchildren : ∀ c ∈ e.children, HasArities c) : HasArities e

theorem Expr.HasArities.of_mem_children {e c : Expr} (h : e.HasArities) (hc : c ∈ e.children) :
    c.HasArities := by
  obtain ⟨-, hchildren⟩ := h
  exact hchildren c hc

/-- The exponents of the constant powers that are computed fit in 32 bits. -/
def Bounds.InRange (bounds : Bounds) : Prop :=
  bounds.maxExactExponent < Rational.exponentBound

/-- The ways in which rules fail that ask for the powers `asks` of constants: by division by zero, or
since a power that they ask for has the least 64-bit integer as the numerator of its exponent. -/
def Error.IsRuleFailure (asks : Rat → Rat → Prop) (x : Error) : Prop :=
  x = .divisionByZero ∨ x = .leastExponent ∧ ∃ b q, asks b q ∧ q.num = Rational.leastInt64

theorem Error.IsRuleFailure.mono {asks more : Rat → Rat → Prop} {x : Error} (h : x.IsRuleFailure asks)
    (hmore : ∀ b q, asks b q → more b q) : x.IsRuleFailure more :=
  h.imp_right fun ⟨heq, b, q, hasks, hleast⟩ => ⟨heq, b, q, hmore b q hasks, hleast⟩

/-- A power with an exponent in range is computed, unless it divides by zero. -/
theorem Rational.power_eq (b : Rat) {n : Int} (hn : n.natAbs < exponentBound) :
    power b n = if b = 0 ∧ n < 0 then .error .divisionByZero else .ok (b ^ n) := by
  unfold power reciprocal divide
  rw [if_neg (by omega)]
  by_cases hneg : n < 0
  · obtain ⟨k, hk, rfl⟩ : ∃ k : Nat, k ≠ 0 ∧ n = -k := ⟨n.natAbs, by omega, by omega⟩
    have hzero : Rat.pow b (-(k : Int)).natAbs = 0 ↔ b = 0 := by
      rw [Int.natAbs_neg, Int.natAbs_natCast]
      exact pow_eq_zero_iff hk
    rw [if_pos hneg]
    by_cases hb : b = 0
    · rw [if_pos (hzero.mpr hb), if_pos ⟨hb, hneg⟩]
    · rw [if_neg (hzero.not.mpr hb), if_neg fun h => hb h.1, zpow_neg, zpow_natCast, Int.natAbs_neg,
        Int.natAbs_natCast, one_div]
      rfl
  · obtain ⟨k, rfl⟩ : ∃ k : Nat, n = k := ⟨n.natAbs, by omega⟩
    rw [if_neg hneg, if_neg fun h => hneg h.2, zpow_natCast]
    rfl

theorem Rational.error_of_power {b : Rat} {n : Int} {x : Error} (hn : n.natAbs < exponentBound)
    (h : power b n = .error x) : x = .divisionByZero := by
  rw [power_eq b hn] at h
  split at h <;> cases h
  rfl

theorem Bounds.InRange.num_ne {bounds : Bounds} (hbounds : bounds.InRange) {n : Int}
    (hn : n.natAbs ≤ bounds.maxExactExponent) : n ≠ Rational.leastInt64 := by
  unfold Bounds.InRange Rational.exponentBound at hbounds
  unfold Rational.leastInt64
  omega

theorem Bounds.InRange.floor_lt {bounds : Bounds} (hbounds : bounds.InRange) {q : Rat}
    (hq : q.num.natAbs ≤ bounds.maxExactExponent) : q.floor.natAbs < Rational.exponentBound :=
  (Canonical.natAbs_floor_le q).trans_lt (hq.trans_lt hbounds)

namespace Canonical

open ClosedForm.Expr

variable {bounds : Bounds} {x : Error}

/-! ## Powers of constants -/

/-- Constants have powers to all exponents up to the limit, except that zero has no reciprocal. -/
theorem power_constant_int (hbounds : bounds.InRange) (c : Rat) {n : Int}
    (hn : n.natAbs ≤ bounds.maxExactExponent) :
    power bounds (.constant c) (.constant n) =
      if c = 0 ∧ n < 0 then .error .divisionByZero else .ok (.constant (c ^ n)) := by
  rw [power_eq]
  unfold powerStep
  by_cases htrivial : n = 0 ∨ c = 1
  · rw [if_pos (by simpa [isZero, isOne] using htrivial), if_neg (by grind)]
    rcases htrivial with rfl | rfl <;> simp [Expr.one] <;> rfl
  rw [if_neg (by simpa [isZero, isOne] using htrivial)]
  by_cases hone : n = 1
  · rw [if_pos (by simp [isOne, hone]), if_neg (by omega), hone, zpow_one]
    rfl
  rw [if_neg (by simpa [isOne] using hone)]
  show constantPower bounds _ c n = _
  unfold constantPower
  dsimp only
  rw [if_pos (by simp [Rational.isInteger]), Rat.num_intCast, if_neg (hbounds.num_ne hn), if_pos hn,
    Rational.power_eq c (hn.trans_lt hbounds)]
  split <;> rfl

theorem error_of_basicPower (hbounds : bounds.InRange) {b q : Rat}
    (h : basicPower bounds b q = .error x) :
    x = .divisionByZero ∨ x = .leastExponent ∧ q.num = Rational.leastInt64 := by
  have hpower {c : Rat} (hlimit : q.num.natAbs ≤ bounds.maxExactExponent)
      (h : (Rational.power c q.num >>= fun value => (Except.ok (.constant value) : Except Error Expr)) =
        .error x) : x = .divisionByZero := by
    rcases bind_eq_error.mp h with h | ⟨_, -, h⟩
    · exact Rational.error_of_power (hlimit.trans_lt hbounds) h
    · cases h
  have houtcome : ConstantOutcome bounds _ b q (.error x) := h ▸ basicPower_outcome b q
  generalize hresult : Except.error x = result at houtcome
  cases houtcome with
  | integer _ hlimit => exact .inl (hpower hlimit hresult.symm)
  | root _ _ hlimit => exact .inl (hpower hlimit hresult.symm)
  | refused hleast =>
    cases hresult
    exact .inr ⟨rfl, hleast⟩
  | undefined =>
    cases hresult
    exact .inl rfl
  | split hsplits =>
    -- The rule for products is not asked here: it would fail by division by zero itself.
    rcases bind_eq_error.mp hresult.symm with h | ⟨_, -, h⟩
    · exact .inl (Rational.error_of_power (hbounds.floor_lt hsplits.num_le) h)
    · cases h
      exact .inl rfl
  | zero | radical | kept => cases hresult

/-- The fraction that is left of a split exponent has another numerator. -/
theorem num_fraction_ne (q : Rat) : (q - q.floor).num ≠ Rational.leastInt64 := by
  have hnum : 0 ≤ (q - q.floor).num := Rat.num_nonneg.mpr (sub_nonneg.mpr q.floor_le)
  unfold Rational.leastInt64
  omega

theorem error_of_constantPower (hbounds : bounds.InRange) {P : Expr → Expr → Except Error Expr}
    {b q : Rat} (hP : Splits bounds b q →
      P (.constant b) (.constant (q - q.floor)) = basicPower bounds b (q - q.floor))
    (h : constantPower bounds (multiplyWith P) b q = .error x) :
    x = .divisionByZero ∨ x = .leastExponent ∧ q.num = Rational.leastInt64 := by
  by_cases hsplits : Splits bounds b q
  · rw [constantPower_splits hsplits (hP hsplits)] at h
    rcases bind_eq_error.mp h with h | ⟨integral, -, h⟩
    · exact .inl (Rational.error_of_power (hbounds.floor_lt hsplits.num_le) h)
    · rcases bind_eq_error.mp h with h | ⟨p, -, h⟩
      · exact (error_of_basicPower hbounds h).imp_right fun hx => absurd hx.2 (num_fraction_ne q)
      · cases h
  · rw [constantPower_of_not_splits hsplits] at h
    exact error_of_basicPower hbounds h

/-- A power of constants is refused exactly if the numerator of its exponent is the least one. But all
powers of `1` are `1`, and `0` has rules of its own for exponents that are no integers, as there are for
roots of an order out of bounds. -/
theorem power_constants_refused_iff (hbounds : bounds.InRange) {b q : Rat} :
    power bounds (.constant b) (.constant q) = .error .leastExponent ↔
      q.num = Rational.leastInt64 ∧ b ≠ 1 ∧
        (Rational.isInteger q = true ∨ b ≠ 0 ∧ q.den < rootBound) := by
  have hpower (hb : b ≠ 1) (hzero : q ≠ 0) (hone : q ≠ 1) : power bounds (.constant b) (.constant q) =
      constantPower bounds (multiplyWith (power bounds)) b q := by
    rw [power_eq, powerStep, if_neg (by simpa [isZero, isOne] using ⟨hzero, hb⟩),
      if_neg (by simpa [isOne] using hone)]
  constructor
  · intro h
    have hb : b ≠ 1 := by
      rintro rfl
      rw [power_eq, powerStep, if_pos (by simp [isOne])] at h
      cases h
    have hzero : q ≠ 0 := by
      rintro rfl
      rw [power_eq, powerStep, if_pos (by simp [isZero])] at h
      cases h
    have hone : q ≠ 1 := by
      rintro rfl
      cases (power_one (.constant b)).symm.trans h
    rw [hpower hb hzero hone] at h
    obtain hx | ⟨-, hleast⟩ := error_of_constantPower hbounds power_fraction h
    · cases hx
    refine ⟨hleast, hb, or_iff_not_imp_left.mpr fun hint => ?_⟩
    unfold constantPower at h
    dsimp only at h
    rw [if_neg hint] at h
    by_cases hbase : b = 0
    · rw [if_pos hbase] at h
      split at h <;> cases h
    rw [if_neg hbase] at h
    refine ⟨hbase, not_le.mp fun hden => ?_⟩
    rw [if_pos hden] at h
    cases h
  · rintro ⟨hleast, hb, hroot⟩
    have hzero : q ≠ 0 := by
      rintro rfl
      exact absurd hleast (by decide)
    have hone : q ≠ 1 := by
      rintro rfl
      exact absurd hleast (by decide)
    rw [hpower hb hzero hone, constantPower_refused hleast hroot]

/-! ## The calls of rules -/

/-- A rule with what it is applied to. -/
inductive RuleCall
  | multiply (factors : List Expr)
  | power (base exponent : Expr)
  | node (e : Expr)

namespace RuleCall

/-- The first call leads to the second one directly, after everything before it succeeded. -/
inductive Calls (bounds : Bounds) : RuleCall → RuleCall → Prop
  | factor {fs : List Expr} {before after : List (Expr × List Expr)} {p : Expr × List Expr}
      {powers : List Expr} (hcoefficient : (PowerProduct.ofFactors fs).coefficient ≠ 0)
      (hsplit : (PowerProduct.ofFactors fs).powers = before ++ p :: after)
      (hbefore : before.mapM (fun p => Canonical.power bounds p.1 (addExponents p.2)) = .ok powers) :
    Calls bounds (.multiply fs) (.power p.1 (addExponents p.2))
  | exponents {inner e : Expr} {n : Rat} (hn : Rational.isInteger n = true) (hzero : n ≠ 0)
      (hone : n ≠ 1) :
    Calls bounds (.power (.pow inner e) (.constant n)) (.multiply [e, .constant n])
  | inner {inner e combined : Expr} {n : Rat} (hn : Rational.isInteger n = true) (hzero : n ≠ 0)
      (hone : n ≠ 1) (hcombined : Canonical.multiply bounds [e, .constant n] = .ok combined) :
    Calls bounds (.power (.pow inner e) (.constant n)) (.power inner combined)
  | spread {before after powers : List Expr} {f : Expr} {n : Rat} (hn : Rational.isInteger n = true)
      (hzero : n ≠ 0) (hone : n ≠ 1)
      (hbefore : before.mapM (fun f => Canonical.power bounds f (.constant n)) = .ok powers) :
    Calls bounds (.power (.mul (before ++ f :: after)) (.constant n)) (.power f (.constant n))
  | collect {factors powers : List Expr} {n : Rat} (hn : Rational.isInteger n = true)
      (hzero : n ≠ 0) (hone : n ≠ 1)
      (hpowers : factors.mapM (fun f => Canonical.power bounds f (.constant n)) = .ok powers) :
    Calls bounds (.power (.mul factors) (.constant n)) (.multiply powers)
  | split {b q integral : Rat} (hsplits : Splits bounds b q)
      (hintegral : Rational.power b q.floor = .ok integral) :
    Calls bounds (.power (.constant b) (.constant q)) (.multiply (splitPower integral b q))
  | product (factors : List Expr) : Calls bounds (.node (.mul factors)) (.multiply factors)
  | pow (base exponent : Expr) : Calls bounds (.node (.pow base exponent)) (.power base exponent)
  | opposite {f : Func} {argument : Expr} (hf : f = .sin ∨ f = .cos ∨ f = .tan)
      (hsign : argument.splitCoefficient.1 < 0) :
    Calls bounds (.node (.function f [argument])) (.multiply [.integer (-1), argument])
  | odd {f : Func} {argument positive : Expr} (hf : f = .sin ∨ f = .tan)
      (hsign : argument.splitCoefficient.1 < 0)
      (hpositive : Canonical.multiply bounds [.integer (-1), argument] = .ok positive) :
    Calls bounds (.node (.function f [argument])) (.multiply [.integer (-1), .call f positive])

/-- The call comes to the power `b^q` of constants. -/
def Asks (bounds : Bounds) (call : RuleCall) (b q : Rat) : Prop :=
  Relation.ReflTransGen (Calls bounds) call (.power (.constant b) (.constant q))

/-- What fails in a call that a rule makes fails in the rule. -/
theorem Calls.isRuleFailure {call other : RuleCall} (h : Calls bounds call other)
    (hx : x.IsRuleFailure (other.Asks bounds)) : x.IsRuleFailure (call.Asks bounds) :=
  hx.mono fun _ _ hasks => .head h hasks

end RuleCall

/-! ## Products and powers -/

/-- The rule for products fails where it calls the rule for powers, at the base of a factor. -/
theorem exists_of_multiply_eq_error {fs : List Expr} (h : multiplyWith (power bounds) fs = .error x) :
    ∃ f ∈ factorsList fs, ∃ e, power bounds (factorBase f) e = .error x ∧
      RuleCall.Calls bounds (.multiply fs) (.power (factorBase f) e) := by
  unfold multiplyWith at h
  dsimp only at h
  split at h
  · cases h
  · next hcoefficient =>
    rcases bind_eq_error.mp h with h | ⟨_, -, h⟩
    · obtain ⟨before, p, after, powers, hsplit, hbefore, hfails⟩ := exists_split_of_mapM_eq_error h
      have hp : p ∈ (PowerProduct.ofFactors fs).powers := by
        rw [hsplit]
        simp
      obtain ⟨f, hf, -, hbase⟩ := PowerProduct.exists_factor_of_mem_powers hp
      have hcall := RuleCall.Calls.factor hcoefficient hsplit hbefore
      rw [hbase] at hfails hcall
      exact ⟨f, hf, _, hfails, hcall⟩
    · cases h

/-- By induction on the depth of the base: every further power is one of a base that lies deeper. -/
theorem error_of_power (hbounds : bounds.InRange) {base exponent : Expr}
    (h : power bounds base exponent = .error x) :
    x.IsRuleFailure ((RuleCall.power base exponent).Asks bounds) := by
  have hproduct {fs : List Expr} (hfs : ∀ f ∈ fs, ∃ d < base.depth, BasesWithin d f)
      (h : multiplyWith (power bounds) fs = .error x) :
      x.IsRuleFailure ((RuleCall.multiply fs).Asks bounds) := by
    obtain ⟨f, hf, e, hfails, hcall⟩ := exists_of_multiply_eq_error h
    obtain ⟨g, hg, hfg⟩ := mem_factorsList.mp hf
    obtain ⟨d, hd, hwithin⟩ := hfs g hg
    have : (factorBase f).depth < base.depth := (hwithin f hfg).trans_lt hd
    exact hcall.isRuleFailure (error_of_power hbounds hfails)
  rw [power_eq] at h
  have houtcome : PowerOutcome bounds (power bounds) base exponent _ :=
    powerStep_outcome base exponent
  rw [h] at houtcome
  generalize hresult : Except.error x = result at houtcome
  cases houtcome with
  | one | base | imaginary | inert => cases hresult
  | @constants b q =>
    refine (error_of_constantPower hbounds power_fraction hresult.symm).imp_right fun hx => ?_
    exact ⟨hx.1, b, q, .refl, hx.2⟩
  | @nested inner e n hn hzero hone =>
    rcases bind_eq_error.mp hresult.symm with h | ⟨combined, hcombined, h⟩
    · exact (RuleCall.Calls.exponents hn hzero hone).isRuleFailure (hproduct basesWithin_exponents h)
    · have := (depth_lt_pow inner e).1
      rw [← multiply_eq] at hcombined
      exact (RuleCall.Calls.inner hn hzero hone hcombined).isRuleFailure (error_of_power hbounds h)
  | @spread factors n hn hzero hone =>
    rcases bind_eq_error.mp hresult.symm with h | ⟨powers, hpowers, h⟩
    · obtain ⟨before, f, after, _, rfl, hbefore, hfails⟩ := exists_split_of_mapM_eq_error h
      have : f.depth < (Expr.mul (before ++ f :: after)).depth :=
        depth_lt_of_mem_children (by simp [children])
      exact (RuleCall.Calls.spread hn hzero hone hbefore).isRuleFailure (error_of_power hbounds hfails)
    · refine (RuleCall.Calls.collect hn hzero hone hpowers).isRuleFailure (hproduct (fun p hp => ?_) h)
      obtain ⟨f, hf, hfp⟩ := exists_of_forall₂_right (mapM_eq_ok.mp hpowers) hp
      exact ⟨f.depth, depth_lt_of_mem_children hf, basesWithin_power hfp⟩
termination_by base.depth

theorem error_of_multiply (hbounds : bounds.InRange) {fs : List Expr}
    (h : multiply bounds fs = .error x) : x.IsRuleFailure ((RuleCall.multiply fs).Asks bounds) := by
  rw [multiply_eq] at h
  obtain ⟨f, -, e, hfails, hcall⟩ := exists_of_multiply_eq_error h
  exact hcall.isRuleFailure (error_of_power hbounds hfails)

/-! ## Functions, nodes and passes -/

theorem error_of_apply (hbounds : bounds.InRange) {f : Func} {arguments : List Expr}
    (harity : arguments.length = f.arity) (h : apply bounds f arguments = .error x) :
    x.IsRuleFailure ((RuleCall.node (.function f arguments)).Asks bounds) := by
  have houtcome := h ▸ apply_outcome bounds f arguments
  generalize hresult : Except.error x = result at houtcome
  cases houtcome with
  | unit | special | kept => cases hresult
  | even hsign =>
    rcases bind_eq_error.mp hresult.symm with hfails | ⟨_, -, hfails⟩
    · exact (RuleCall.Calls.opposite (by simp) hsign).isRuleFailure (error_of_multiply hbounds hfails)
    · cases hfails
  | odd hf hsign =>
    rcases bind_eq_error.mp hresult.symm with hfails | ⟨positive, hpositive, hfails⟩
    · exact (RuleCall.Calls.opposite (hf.imp_right .inr) hsign).isRuleFailure
        (error_of_multiply hbounds hfails)
    · exact (RuleCall.Calls.odd hf hsign hpositive).isRuleFailure (error_of_multiply hbounds hfails)
  | arity hunit hlength =>
    -- Every function but the imaginary unit takes one argument.
    refine absurd (harity.trans ?_) hlength
    cases f with
    | imaginaryUnit => exact absurd rfl hunit
    | _ => rfl

theorem error_of_simplifyNode (hbounds : bounds.InRange) {e : Expr}
    (harity : ∀ f arguments, e = .function f arguments → arguments.length = f.arity)
    (h : simplifyNode bounds e = .error x) : x.IsRuleFailure ((RuleCall.node e).Asks bounds) := by
  cases e with
  | mul factors => exact (RuleCall.Calls.product factors).isRuleFailure (error_of_multiply hbounds h)
  | pow base exponent =>
    exact (RuleCall.Calls.pow base exponent).isRuleFailure (error_of_power hbounds h)
  | function f arguments => exact error_of_apply hbounds (harity _ _ rfl) h
  | constant | symbol | add => cases h

/-- A pass over the expression comes to the power `b^q` of constants, after everything before it
succeeded. -/
inductive PassAsks (bounds : Bounds) (memo : Memo) : Expr → Rat → Rat → Prop
  | child {e c : Expr} {before after canonical : List Expr} {b q : Rat}
      (hsplit : e.children = before ++ c :: after)
      (hbefore : before.mapM (pass bounds memo) = .ok canonical) :
    PassAsks bounds memo c b q → PassAsks bounds memo e b q
  | node {e : Expr} {children : List Expr} {b q : Rat}
      (hchildren : e.children.mapM (pass bounds memo) = .ok children) (hfind : memo.find? e = none) :
    (RuleCall.node (e.withChildren children)).Asks bounds b q → PassAsks bounds memo e b q

theorem RuleCall.exists_calls {e : Expr} {b q : Rat} (h : (RuleCall.node e).Asks bounds b q) :
    ∃ other, Calls bounds (.node e) other := by
  rcases Relation.ReflTransGen.cases_head h with h | ⟨other, hcall, -⟩
  · cases h
  · exact ⟨other, hcall⟩

theorem not_passAsks_symbol {memo : Memo} {b q : Rat} (name : String) :
    ¬ PassAsks bounds memo (.symbol name) b q := by
  rintro (⟨hsplit, -, -⟩ | ⟨-, -, hasks⟩)
  · simp [children] at hsplit
  · obtain ⟨other, hcall⟩ := RuleCall.exists_calls hasks
    cases hcall

/-- Functions without a symmetry ask for nothing themselves. -/
theorem PassAsks.argument {memo : Memo} {f : Func} {argument : Expr} {b q : Rat}
    (hf : ¬ (f = .sin ∨ f = .cos ∨ f = .tan)) (h : PassAsks bounds memo (.call f argument) b q) :
    PassAsks bounds memo argument b q := by
  rcases h with ⟨hsplit, -, hasks⟩ | ⟨hchildren, -, hasks⟩
  · obtain ⟨-, rfl, -⟩ : _ = [] ∧ _ = argument ∧ _ = [] := by
      simpa [children, call, List.singleton_eq_append_iff] using hsplit
    exact hasks
  · obtain ⟨other, hcall⟩ := RuleCall.exists_calls hasks
    simp only [call, withChildren] at hcall
    cases hcall with
    | opposite hsign => exact absurd hsign hf
    | odd hsign => exact absurd (hsign.imp_right .inr) hf

/-- A pass fails as the rules do, whatever the memo holds. -/
theorem error_of_pass (hbounds : bounds.InRange) {memo : Memo} {e : Expr} (he : e.HasArities)
    (h : pass bounds memo e = .error x) : x.IsRuleFailure (PassAsks bounds memo e) := by
  induction e using Expr.induction with
  | node e ih =>
    rw [pass_eq] at h
    rcases bind_eq_error.mp h with h | ⟨cs, hcs, h⟩
    · obtain ⟨before, c, after, _, hsplit, hbefore, hfails⟩ := exists_split_of_mapM_eq_error h
      have hc : c ∈ e.children := by
        rw [hsplit]
        simp
      exact (ih c hc (he.of_mem_children hc) hfails).mono fun _ _ => .child hsplit hbefore
    cases hfind : memo.find? e with
    | some canonical =>
      rw [passStep_of_find hfind] at h
      cases h
    | none =>
      rw [passStep_of_not_find hfind] at h
      refine (error_of_simplifyNode hbounds (fun f arguments heq => ?_) h).mono fun _ _ =>
        .node hcs hfind
      have hlength := (mapM_eq_ok.mp hcs).length_eq
      cases e with
      | function g old =>
        cases heq
        obtain ⟨harity, -⟩ := he
        exact hlength.symm.trans (harity _ old rfl)
      | pow base exponent =>
        match cs, heq with
        | [], heq | [_], heq | _ :: _ :: _ :: _, heq | [_, _], heq => cases heq
      | _ => cases heq

/-- Settling comes to the power `b^q` of constants within a number of passes. -/
inductive SettleAsks (bounds : Bounds) (memo : Memo) : Nat → Expr → Rat → Rat → Prop
  | pass {passes : Nat} {e : Expr} {b q : Rat} :
    PassAsks bounds memo e b q → SettleAsks bounds memo (passes + 1) e b q
  | next {passes : Nat} {e next : Expr} {b q : Rat} (hpass : Canonical.pass bounds memo e = .ok next)
      (hne : next ≠ e) (hfind : memo.find? next = none) :
    SettleAsks bounds memo passes next b q → SettleAsks bounds memo (passes + 1) e b q

/-- Canonicalization comes to the power `b^q` of constants. -/
def Asks (bounds : Bounds) (memo : Memo) (e : Expr) (b q : Rat) : Prop :=
  memo.find? e = none ∧ SettleAsks bounds memo bounds.maxPasses e b q

end Canonical

end ClosedForm
