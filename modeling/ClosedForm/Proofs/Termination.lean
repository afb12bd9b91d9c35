import ClosedForm.Proofs.Nesting
import Mathlib

/-!
# Termination of the rules

The rules for sums, products and powers call each other on expressions that they have just made: a
power of a product asks for the product of powers, a product asks for powers with exponents that it
has collected, a power of a constant asks for a product again. The rules of `Canonical.Rules` do
so with no bound on the nesting, on the number of calls or on the length of the stack of factors, and
they count the calls that they make; a recursion without end would have no result.

All of them end, with the results of the rules that the library runs (`Canonical.rules_end`). The
measure is the depth of the base of a power: the bases that a product is made of lie below the
product, a power to an integer exponent has bases no deeper than its own base (`basesWithin_power`),
and a power of a constant that splits its exponent leaves a fraction that is not split again.
-/

namespace ClosedForm

open ClosedForm.Expr

/-- A computation that counts the calls made. One that makes calls without end has no result. -/
abbrev Counting := ExceptT Error (StateT Nat Option)

namespace Counting

variable {α β : Type}

/-- Counts a call. -/
def call : Counting Unit :=
  modify (· + 1)

/-- The computation ends with the result, after finitely many calls. -/
def Ends (action : Counting α) (result : Except Error α) : Prop :=
  ∃ calls : Nat, ∀ before : Nat, action.run.run before = some (result, before + calls)

namespace Ends

theorem pure (value : α) : Ends (Pure.pure value) (.ok value) :=
  ⟨0, fun _ => rfl⟩

theorem throw (error : Error) : Ends (throw error : Counting α) (.error error) :=
  ⟨0, fun _ => rfl⟩

theorem ofExcept (result : Except Error α) : Ends (MonadExcept.ofExcept result) result := by
  cases result with
  | ok value => exact pure value
  | error error => exact throw error

/-- The calls of both parts are made, those of the second if the first succeeds. -/
theorem bind {action : Counting α} {result : Except Error α} {next : α → Counting β}
    {next' : α → Except Error β} (h : Ends action result)
    (hnext : ∀ value, result = .ok value → Ends (next value) (next' value)) :
    Ends (action >>= next) (result >>= next') := by
  obtain ⟨n, hn⟩ := h
  cases result with
  | error error =>
    refine ⟨n, fun before => ?_⟩
    rw [ExceptT.run_bind, StateT.run_bind, hn]
    rfl
  | ok value =>
    obtain ⟨m, hm⟩ := hnext value rfl
    refine ⟨n + m, fun before => ?_⟩
    rw [ExceptT.run_bind, StateT.run_bind, hn, ← Nat.add_assoc]
    exact hm (before + n)

theorem call_bind {action : Counting α} {result : Except Error α} (h : Ends action result) :
    Ends (call >>= fun _ => action) result := by
  have hcall : Ends call (.ok ()) := ⟨1, fun _ => rfl⟩
  have hboth : Ends (call >>= fun _ => action) (.ok () >>= fun _ => result) :=
    hcall.bind fun _ _ => h
  exact hboth

/-- What follows a computation that ends well. -/
theorem bind_ok {action : Counting α} {value : α} {next : α → Counting β} {result : Except Error β}
    (h : Ends action (.ok value)) (hnext : Ends (next value) result) :
    Ends (action >>= next) result := by
  have hboth : Ends (action >>= next) (.ok value >>= fun _ => result) :=
    h.bind fun _ heq => by cases heq; exact hnext
  exact hboth

theorem ite {c : Prop} [Decidable c] {action other : Counting α} {result result' : Except Error α}
    (h : c → Ends action result) (h' : ¬ c → Ends other result') :
    Ends (if c then action else other) (if c then result else result') := by
  split
  · next hc => exact h hc
  · next hc => exact h' hc

theorem mapM {f : α → Counting β} {g : α → Except Error β} {as : List α}
    (h : ∀ a ∈ as, Ends (f a) (g a)) : Ends (as.mapM f) (as.mapM g) := by
  induction as with
  | nil => exact pure []
  | cons a as ih =>
    rw [List.mapM_cons, List.mapM_cons]
    exact (h a (by simp)).bind fun b _ => (ih fun x hx => h x (by simp [hx])).bind fun bs _ =>
      pure (b :: bs)

theorem foldlM {f : β → α → Counting β} {g : β → α → β} {as : List α} (start : β)
    (h : ∀ a ∈ as, ∀ b, Ends (f b a) (.ok (g b a))) :
    Ends (as.foldlM f start) (.ok (as.foldl g start)) := by
  induction as generalizing start with
  | nil => exact pure start
  | cons a as ih =>
    rw [List.foldlM_cons]
    exact (h a (by simp) start).bind_ok (ih _ fun x hx => h x (by simp [hx]))

end Ends

end Counting

namespace Canonical

open Counting (Ends)

/-! ## The rules, counting calls -/

/-- The rules as they call each other, with the limits that they keep. -/
structure Rules where
  bounds : Bounds

namespace Rules

/-- Adds `scale * e` to a form. -/
def gather (rules : Rules) (scale : Rat) (form : LinearForm) (e : Expr) : Counting LinearForm := do
  Counting.call
  match e with
  | .constant c => return { form with constant := form.constant + scale * c }
  | .add terms => terms.foldlM (fun form t => rules |>.gather scale form t) form
  | e =>
    let (c, rest) := e.splitCoefficient
    if rest.isAdd then rules |>.gather (scale * c) form rest
    else return { form with terms := LinearForm.addTerm rest (scale * c) form.terms }
partial_fixpoint

/-- The rule for sums. -/
def add (rules : Rules) (terms : List Expr) : Counting Expr := do
  Counting.call
  let form ← terms.foldlM (rules.gather 1) .zero
  return form.toExpr

/-- Multiplies by the factors on a stack. A product is replaced by its factors. -/
def openFactors (rules : Rules) (product : PowerProduct) (stack : List Expr) : Counting PowerProduct := do
  Counting.call
  match stack with
  | [] => return product
  | .mul factors :: stack => rules |>.openFactors product (factors ++ stack)
  | f :: stack => rules |>.openFactors (product.addFactor f) stack
partial_fixpoint

/-- The exponent that collects the exponents of one base. -/
def addExponents (rules : Rules) : List Expr → Counting Expr
  | [exponent] => return exponent
  | exponents => rules.add exponents

/-- The product of a coefficient and powers. -/
def assemble (rules : Rules) (coefficient : Rat) (powers : List Expr) : Counting Expr := do
  if coefficient = 0 then return .zero
  else
    match powers with
    | [] => return .constant coefficient
    | [.add terms] =>
      if coefficient = 1 then return .add terms
      else do
        let form ← rules.gather coefficient .zero (.add terms)
        return form.toExpr
    | _ =>
      return Expr.product (Expr.sort
        (if coefficient = 1 then powers else powers ++ [.constant coefficient]))

mutual

/-- The rule for products. -/
def multiply (rules : Rules) (factors : List Expr) : Counting Expr := do
  Counting.call
  let parts ← rules.openFactors .one factors
  if parts.coefficient = 0 then return .zero
  else do
    let powers ← parts.powers.mapM fun p => do
      let exponent ← rules.addExponents p.2
      rules |>.power p.1 exponent
    rules.assemble (parts.coefficient * constantPart powers)
      (powers.filter fun e => e.constant?.isNone)
partial_fixpoint

/-- The rule for powers of constants. -/
def constantPower (rules : Rules) (base exponent : Rat) : Counting Expr := do
  Counting.call
  if Rational.isInteger exponent then
    if exponent.num = Rational.leastInt64 then throw .leastExponent
    else if exponent.num.natAbs ≤ rules.bounds.maxExactExponent then do
      let c ← MonadExcept.ofExcept (Rational.power base exponent.num)
      return .constant c
    else if base = 0 && exponent < 0 then throw .divisionByZero
    else return .pow (.constant base) (.constant exponent)
  else if base = 0 then
    if 0 < exponent then return .zero else throw .divisionByZero
  else if rootBound ≤ exponent.den then return .pow (.constant base) (.constant exponent)
  else if exponent.num = Rational.leastInt64 then throw .leastExponent
  else if rules.bounds.maxExactExponent < exponent.num.natAbs then
    return .pow (.constant base) (.constant exponent)
  else
    match Rational.root? base exponent.den with
    | some root => do
      let c ← MonadExcept.ofExcept (Rational.power root exponent.num)
      return .constant c
    | none =>
      if base < 0 then return .pow (.constant base) (.constant exponent)
      else if exponent.floor ≠ 0 then do
        let integral ← MonadExcept.ofExcept (Rational.power base exponent.floor)
        rules |>.multiply
          [.constant integral, .pow (.constant base) (.constant (exponent - exponent.floor))]
      else if exponent.den = 2 then return radical base exponent
      else return .pow (.constant base) (.constant exponent)
partial_fixpoint

/-- The rule for powers. -/
def power (rules : Rules) (base exponent : Expr) : Counting Expr := do
  Counting.call
  if exponent.isZero || base.isOne then return .one
  else if exponent.isOne then return base
  else
    match exponent with
    | .constant n =>
      match base with
      | .constant b => rules |>.constantPower b n
      | .pow inner e =>
        if Rational.isInteger n then do
          let combined ← rules |>.multiply [e, .constant n]
          rules |>.power inner combined
        else return .pow base exponent
      | .mul factors =>
        if Rational.isInteger n then do
          let powers ← factors.mapM fun f => rules |>.power f (.constant n)
          rules |>.multiply powers
        else return .pow base exponent
      | .function .imaginaryUnit _ =>
        if Rational.isInteger n then return imaginaryPower n.num
        else return .pow base exponent
      | _ => return .pow base exponent
    | _ => return .pow base exponent
partial_fixpoint

end

variable {rules : Rules}

/-! ## Sums end -/

/-- A sum is left behind a coefficient only if it is the one other factor. -/
theorem isAdd_splitCoefficient {e : Expr} (hadd : e.isAdd = false)
    (hmul : ∀ c terms, e ≠ .mul [.constant c, .add terms]) :
    e.splitCoefficient.2.isAdd = false := by
  unfold Expr.splitCoefficient
  split
  · rfl
  · next c factors =>
    match factors with
    | [] => rfl
    | [f] =>
      cases f with
      | add terms => exact absurd rfl (hmul c terms)
      | _ => rfl
    | _ :: _ :: _ => rfl
  · exact hadd

theorem gather_ends (scale : Rat) (form : LinearForm) (e : Expr) :
    Ends (rules.gather scale form e) (.ok (LinearForm.gather scale form e)) := by
  induction e using Expr.induction generalizing scale form with
  | node e ih =>
    rw [gather.eq_def]
    refine Ends.call_bind ?_
    split
    · exact .pure _
    · next terms =>
      rw [LinearForm.gather, LinearForm.gatherList_eq_foldl]
      exact .foldlM form fun t ht form => ih t ht scale form
    · next hconstant hadd =>
      by_cases hmul : ∃ c terms, e = .mul [.constant c, .add terms]
      · obtain ⟨c, terms, rfl⟩ := hmul
        exact ih (.add terms) (by simp [children]) (scale * c) form
      · have hisAdd : e.isAdd = false := by
          cases e with
          | add terms => exact absurd rfl (hadd terms)
          | _ => rfl
        have hnot := isAdd_splitCoefficient hisAdd fun c terms h => hmul ⟨c, terms, h⟩
        dsimp only
        rw [hnot, LinearForm.gather_of_ne scale form hconstant hadd fun c terms h => hmul ⟨c, terms, h⟩]
        exact .pure _

theorem foldlM_gather_ends (scale : Rat) (form : LinearForm) (es : List Expr) :
    Ends (es.foldlM (rules.gather scale) form) (.ok (LinearForm.gatherList scale form es)) := by
  rw [LinearForm.gatherList_eq_foldl]
  exact .foldlM form fun e _ form => gather_ends scale form e

theorem add_ends (terms : List Expr) : Ends (rules.add terms) (.ok (Canonical.add terms)) :=
  .call_bind ((foldlM_gather_ends 1 .zero terms).bind_ok (.pure _))

theorem addExponents_ends (exponents : List Expr) :
    Ends (rules.addExponents exponents) (.ok (Canonical.addExponents exponents)) := by
  match exponents with
  | [exponent] => exact .pure exponent
  | [] => exact add_ends []
  | _ :: _ :: _ => exact add_ends _

/-! ## Products end if powers do -/

/-- The stack is emptied: a factor is opened before the ones below it are looked at. -/
theorem openFactors_append {fs stack : List Expr} {result : PowerProduct → PowerProduct}
    (h : ∀ f ∈ fs, ∀ (stack : List Expr) (result : PowerProduct → PowerProduct),
      (∀ product, Ends (rules.openFactors product stack) (.ok (result product))) → ∀ product,
      Ends (rules.openFactors product (f :: stack))
        (.ok (result (f.factors.foldl PowerProduct.addFactor product))))
    (hstack : ∀ product, Ends (rules.openFactors product stack) (.ok (result product)))
    (product : PowerProduct) :
    Ends (rules.openFactors product (fs ++ stack))
      (.ok (result ((factorsList fs).foldl PowerProduct.addFactor product))) := by
  induction fs generalizing product with
  | nil => exact hstack product
  | cons f fs ih =>
    rw [factorsList, List.foldl_append]
    exact h f (by simp) (fs ++ stack) _ (ih fun g hg => h g (by simp [hg])) product

theorem openFactors_cons (f : Expr) {stack : List Expr} {result : PowerProduct → PowerProduct}
    (hstack : ∀ product, Ends (rules.openFactors product stack) (.ok (result product)))
    (product : PowerProduct) :
    Ends (rules.openFactors product (f :: stack))
      (.ok (result (f.factors.foldl PowerProduct.addFactor product))) := by
  induction f using Expr.induction generalizing stack result product with
  | node f ih =>
    rw [openFactors.eq_def]
    refine .call_bind ?_
    cases f with
    | mul factors =>
      exact openFactors_append (fun g hg stack result hstack product => ih g hg hstack product)
        hstack product
    | _ => exact hstack _

theorem openFactors_ends (factors : List Expr) :
    Ends (rules.openFactors .one factors) (.ok (PowerProduct.ofFactors factors)) := by
  have hempty (product : PowerProduct) : Ends (rules.openFactors product []) (.ok (id product)) := by
    rw [openFactors.eq_def]
    exact .call_bind (.pure product)
  have h : Ends (rules.openFactors .one (factors ++ [])) (.ok (PowerProduct.ofFactors factors)) :=
    openFactors_append (fun f _ stack result hstack product => openFactors_cons f hstack product)
      hempty .one
  rwa [List.append_nil] at h

theorem assemble_ends (c : Rat) (powers : List Expr) :
    Ends (rules.assemble c powers) (.ok (Canonical.assemble c powers)) := by
  unfold assemble Canonical.assemble
  by_cases hzero : c = 0
  · rw [if_pos hzero, if_pos hzero]
    exact .pure _
  rw [if_neg hzero, if_neg hzero]
  match powers with
  | [] => exact .pure _
  | [.add terms] =>
    by_cases hone : c = 1
    · simp only [if_pos hone]
      exact .pure _
    · simp only [if_neg hone]
      exact (gather_ends c .zero (.add terms)).bind_ok (.pure _)
  | .add _ :: _ :: _ | .constant _ :: _ | .symbol _ :: _ | .mul _ :: _ | .pow _ _ :: _
  | .function _ _ :: _ => exact .pure _

/-- A product ends if the powers that it asks for do. -/
theorem multiply_ends_of {P : Expr → Expr → Except Error Expr} {factors : List Expr}
    (h : ∀ p ∈ (PowerProduct.ofFactors factors).powers,
      Ends (rules.power p.1 (Canonical.addExponents p.2)) (P p.1 (Canonical.addExponents p.2))) :
    Ends (rules.multiply factors) (multiplyWith P factors) := by
  rw [multiply]
  refine .call_bind ((openFactors_ends factors).bind_ok ?_)
  refine .ite (fun _ => .pure _) fun _ => ?_
  refine Ends.bind (.mapM fun p hp => ?_) fun powers _ => assemble_ends _ _
  exact (addExponents_ends p.2).bind_ok (h p hp)

/-- A product ends if the powers of the bases of its factors do. -/
theorem multiply_ends_of_bases {P : Expr → Expr → Except Error Expr} {factors : List Expr}
    (h : ∀ f ∈ factorsList factors, ∀ exponent,
      Ends (rules.power (factorBase f) exponent) (P (factorBase f) exponent)) :
    Ends (rules.multiply factors) (multiplyWith P factors) := by
  refine multiply_ends_of fun p hp => ?_
  obtain ⟨f, hf, -, hbase⟩ := PowerProduct.exists_factor_of_mem_powers hp
  rw [hbase]
  exact h f hf _

/-! ## Powers end -/

/-- A power of a constant ends if the product that it asks for does where it splits its exponent. -/
theorem constantPower_ends_of {M : List Expr → Except Error Expr} {b q : Rat}
    (h : Splits rules.bounds b q → ∀ integral,
      Ends (rules.multiply (splitPower integral b q)) (M (splitPower integral b q))) :
    Ends (rules.constantPower b q) (Canonical.constantPower rules.bounds M b q) := by
  rw [constantPower]
  unfold Canonical.constantPower
  refine .call_bind (.ite (fun _ => ?_) fun hint => .ite (fun _ => ?_) fun hb =>
    .ite (fun _ => .pure _) fun hden => .ite (fun _ => .throw _) fun hleast =>
    .ite (fun _ => .pure _) fun hlimit => ?_)
  · exact .ite (fun _ => .throw _) fun _ =>
      .ite (fun _ => (Ends.ofExcept _).bind fun c _ => .pure _) fun _ =>
      .ite (fun _ => .throw _) fun _ => .pure _
  · exact .ite (fun _ => .pure _) fun _ => .throw _
  cases hroot : Rational.root? b q.den with
  | some root => exact (Ends.ofExcept _).bind fun c _ => .pure _
  | none =>
    refine .ite (fun _ => .pure _) fun hneg => .ite (fun hfloor => ?_) fun _ =>
      .ite (fun _ => .pure _) fun _ => .pure _
    have hsplits : Splits rules.bounds b q :=
      ⟨by simpa using hint, lt_of_le_of_ne (not_lt.mp hneg) (Ne.symm hb), not_le.mp hden, hleast,
        not_lt.mp hlimit, hroot, hfloor⟩
    exact (Ends.ofExcept _).bind fun integral _ => h hsplits integral

/-- The fraction that is left when a power of a constant splits its exponent is not split again. -/
theorem power_fraction_ends (b q : Rat) :
    Ends (rules.power (.constant b) (.constant (q - q.floor)))
      (Canonical.power rules.bounds (.constant b) (.constant (q - q.floor))) := by
  rw [power_eq, powerStep.eq_def, power.eq_def]
  refine .call_bind (.ite (fun _ => .pure _) fun _ => .ite (fun _ => .pure _) fun _ => ?_)
  exact constantPower_ends_of fun h => absurd h (not_splits_fraction rules.bounds b q)

theorem constantPower_ends (b q : Rat) :
    Ends (rules.constantPower b q)
      (Canonical.constantPower rules.bounds (multiplyWith (Canonical.power rules.bounds)) b q) := by
  refine constantPower_ends_of fun _ integral => multiply_ends_of fun p hp => ?_
  rw [ofFactors_splitPower, List.mem_singleton] at hp
  rw [hp]
  exact power_fraction_ends b q

theorem power_ends (base exponent : Expr) :
    Ends (rules.power base exponent) (Canonical.power rules.bounds base exponent) := by
  -- By induction on the depth of the base: all products that are opened on the way, also those of
  -- powers that were just made, have factors with shallower bases.
  rw [power_eq, powerStep.eq_def, power.eq_def]
  refine .call_bind (.ite (fun _ => .pure _) fun _ => .ite (fun _ => .pure _) fun _ => ?_)
  cases exponent with
  | constant n =>
    cases base with
    | constant b => exact constantPower_ends b n
    | pow inner e =>
      refine .ite (fun _ => ?_) fun _ => .pure _
      refine Ends.bind (multiply_ends_of_bases fun f hf exponent => ?_) fun combined _ => ?_
      · obtain ⟨g, hg, hfg⟩ := mem_factorsList.mp hf
        obtain ⟨d, hd, hwithin⟩ := @basesWithin_exponents inner e n g hg
        have hlt := (hwithin f hfg).trans_lt hd
        exact power_ends (factorBase f) exponent
      · have hlt := (depth_lt_pow inner e).1
        exact power_ends inner combined
    | mul factors =>
      refine .ite (fun _ => ?_) fun _ => .pure _
      refine Ends.bind (.mapM fun f hf => ?_) fun powers hpowers => ?_
      · have hlt : f.depth < (Expr.mul factors).depth := depth_lt_of_mem_children hf
        exact power_ends f (.constant n)
      · refine multiply_ends_of_bases fun f hf exponent => ?_
        obtain ⟨p, hp, hfp⟩ := mem_factorsList.mp hf
        obtain ⟨g, hg, hgp⟩ := exists_of_forall₂_right (mapM_eq_ok.mp hpowers) hp
        have hbase := basesWithin_power hgp f hfp
        have hlt : g.depth < (Expr.mul factors).depth := depth_lt_of_mem_children hg
        exact power_ends (factorBase f) exponent
    | function f arguments =>
      cases f with
      | imaginaryUnit => exact .ite (fun _ => .pure _) fun _ => .pure _
      | _ => exact .pure _
    | _ => exact .pure _
  | _ => exact .pure _
termination_by base.depth

theorem multiply_ends (factors : List Expr) :
    Ends (rules.multiply factors) (Canonical.multiply rules.bounds factors) := by
  rw [multiply_eq]
  exact multiply_ends_of_bases fun f _ exponent => power_ends (factorBase f) exponent

end Rules

/-- The rules end on all arguments, canonical or not, after finitely many calls, with the results of
the rules that the library runs. -/
theorem rules_end (rules : Rules) :
    (∀ scale form e, Ends (rules.gather scale form e) (.ok (LinearForm.gather scale form e))) ∧
    (∀ terms, Ends (rules.add terms) (.ok (add terms))) ∧
    (∀ factors, Ends (rules.openFactors .one factors) (.ok (PowerProduct.ofFactors factors))) ∧
    (∀ factors, Ends (rules.multiply factors) (multiply rules.bounds factors)) ∧
    (∀ base exponent, Ends (rules.power base exponent) (power rules.bounds base exponent)) ∧
    ∀ base exponent, Ends (rules.constantPower base exponent)
      (constantPower rules.bounds (multiply rules.bounds) base exponent) := by
  refine ⟨Rules.gather_ends, Rules.add_ends, Rules.openFactors_ends, Rules.multiply_ends,
    Rules.power_ends, fun base exponent => ?_⟩
  have hmultiply : multiply rules.bounds = multiplyWith (power rules.bounds) := funext multiply_eq
  rw [hmultiply]
  exact Rules.constantPower_ends base exponent

end Canonical

end ClosedForm
