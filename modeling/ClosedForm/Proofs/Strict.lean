import ClosedForm.Proofs.Closure
import ClosedForm.Proofs.Failures
import ClosedForm.Proofs.Reachable
import Mathlib

/-!
# Children that rules read

The rules read children by their position: the first factor of a product, to see whether it is a
coefficient; the base and the exponent of a power; the argument of a function. The rules of
`Canonical.Strict` do the same, but fail with a given error where there is no such child. On
well-formed expressions (`Expr.WellFormed`) they are the rules, whatever that error is
(`Strict.canonicalize_eq`): the failure is never reached. What rules make of well-formed expressions
is well-formed again (`wellFormed_inherits`), so this holds over all passes, and with every reachable
memo.

`Session.canonicalize_safe` adds that nothing but a division by zero and the bound on the number of passes
can make a canonicalization of a well-formed expression fail, where it comes to no power of constants whose
exponent has no absolute value.
-/

namespace ClosedForm

open ClosedForm.Expr

/-- Sums and products have children, and functions as many arguments as they take. -/
inductive Expr.WellFormed : Expr → Prop
  | node {e : Expr} (hadd : e ≠ .add []) (hmul : e ≠ .mul [])
      (harity : ∀ f arguments, e = .function f arguments → arguments.length = f.arity)
      (hchildren : ∀ c ∈ e.children, WellFormed c) : WellFormed e

theorem Expr.WellFormed.hasArities {e : Expr} (h : e.WellFormed) : e.HasArities := by
  induction h with
  | node _ _ harity _ ih => exact .node harity ih

namespace Canonical

/-! ## The strict rules -/

namespace Strict

variable (missing : Error) (bounds : Bounds)

/-- The first of some children. -/
def first : List Expr → Except Error Expr
  | [] => .error missing
  | e :: _ => .ok e

/-- The coefficient of a term, for which the first factor of a product is read. -/
def splitCoefficient : Expr → Except Error (Rat × Expr)
  | .constant c => return (c, .one)
  | .mul factors => do
    match ← first missing factors with
    | .constant c => return (c, .product factors.tail)
    | _ => return (1, .mul factors)
  | e => return (1, e)

mutual

/-- Adds `scale * e` to a form. -/
def gather (scale : Rat) (form : LinearForm) : Expr → Except Error LinearForm
  | .constant c => return { form with constant := form.constant + scale * c }
  | .add terms => gatherList scale form terms
  | .mul [.constant c, .add terms] => gatherList (scale * c) form terms
  | e => do
    let (c, rest) ← splitCoefficient missing e
    return { form with terms := LinearForm.addTerm rest (scale * c) form.terms }

/-- Adds `scale` times each of the terms to a form. -/
def gatherList (scale : Rat) (form : LinearForm) : List Expr → Except Error LinearForm
  | [] => return form
  | e :: es => do
    let next ← gather scale form e
    gatherList scale next es

end

/-- The rule for sums. -/
def add (terms : List Expr) : Except Error Expr := do
  let form ← gatherList missing 1 .zero terms
  return form.toExpr

/-- The exponent that collects the exponents of one base. -/
def addExponents : List Expr → Except Error Expr
  | [exponent] => return exponent
  | exponents => add missing exponents

/-- The product of a coefficient and powers. -/
def assemble (coefficient : Rat) (powers : List Expr) : Except Error Expr :=
  if coefficient = 0 then return .zero
  else
    match powers with
    | [] => return .constant coefficient
    | [.add terms] =>
      if coefficient = 1 then return .add terms
      else do
        let form ← gatherList missing coefficient .zero terms
        return form.toExpr
    | _ =>
      return Expr.product (Expr.sort
        (if coefficient = 1 then powers else powers ++ [.constant coefficient]))

/-- The rule for products, over a rule for powers. -/
def multiplyWith (power : Expr → Expr → Except Error Expr) (factors : List Expr) :
    Except Error Expr := do
  let parts := PowerProduct.ofFactors factors
  if parts.coefficient = 0 then return .zero
  let powers ← parts.powers.mapM fun p => do
    let exponent ← addExponents missing p.2
    power p.1 exponent
  assemble missing (parts.coefficient * constantPart powers)
    (powers.filter fun e => e.constant?.isNone)

/-- The rule for powers, with a bound on the nesting of calls. -/
def powerWithin : Nat → Expr → Expr → Except Error Expr
  | 0, base, exponent => return .pow base exponent
  | fuel + 1, base, exponent =>
    let power := powerWithin fuel
    if exponent.isZero || base.isOne then return .one
    else if exponent.isOne then return base
    else
      match exponent with
      | .constant n =>
        match base with
        | .constant b => constantPower bounds (multiplyWith missing power) b n
        | .pow inner e =>
          if Rational.isInteger n then do
            let combined ← multiplyWith missing power [e, exponent]
            power inner combined
          else return .pow base exponent
        | .mul factors =>
          if Rational.isInteger n then do
            let powers ← factors.mapM fun f => power f exponent
            multiplyWith missing power powers
          else return .pow base exponent
        | .function .imaginaryUnit _ =>
          if Rational.isInteger n then return imaginaryPower n.num
          else return .pow base exponent
        | _ => return .pow base exponent
      | _ => return .pow base exponent

/-- The rule for powers. -/
def power (base exponent : Expr) : Except Error Expr :=
  powerWithin missing bounds (base.depth + 1) base exponent

/-- The rule for products. -/
def multiply (factors : List Expr) : Except Error Expr :=
  multiplyWith missing (powerWithin missing bounds ((Expr.mul factors).depth + 1)) factors

/-- The opposite of an expression with a negative coefficient. -/
def opposite? (e : Expr) : Except Error (Option Expr) := do
  let (c, _) ← splitCoefficient missing e
  if c < 0 then return some (← multiply missing bounds [.integer (-1), e])
  else return none

/-- A function of one argument that is subject to no special value. -/
def applyBySymmetry (f : Func) (argument : Expr) : Except Error Expr := do
  match f with
  | .cos =>
    match ← opposite? missing bounds argument with
    | some positive => return .call .cos positive
    | none => return .call .cos argument
  | .sin | .tan =>
    match ← opposite? missing bounds argument with
    | some positive => multiply missing bounds [.integer (-1), .call f positive]
    | none => return .call f argument
  | _ => return .call f argument

/-- The exact value of a function at `0` or `1`, or under its inverse, whose argument is read. -/
def specialValue? (f : Func) (argument : Expr) : Except Error (Option Expr) :=
  match f with
  | .sin | .tan => return if argument.isZero then some .zero else none
  | .cos => return if argument.isZero then some .one else none
  | .exp =>
    if argument.isZero then return some .one
    else
      match argument with
      | .function .ln us => do
        let u ← first missing us
        return some u
      | _ => return none
  | .ln =>
    if argument.isOne then return some .zero
    else
      match argument with
      | .function .exp us => do
        let u ← first missing us
        return some u
      | _ => return none
  | .imaginaryUnit => return none

/-- The rule for functions. -/
def apply (f : Func) (arguments : List Expr) : Except Error Expr :=
  match f, arguments with
  | .imaginaryUnit, _ => return .imaginaryUnit
  | f, [argument] => do
    match ← specialValue? missing f argument with
    | some value => return value
    | none => applyBySymmetry missing bounds f argument
  | f, _ => throw (.arity f arguments.length)

/-- The rule for the kind of `e`, over other children; a power reads two of them. -/
def simplifyNode (e : Expr) (children : List Expr) : Except Error Expr :=
  match e with
  | .add _ => add missing children
  | .mul _ => multiply missing bounds children
  | .pow _ _ => do
    let base ← first missing children
    let exponent ← first missing children.tail
    power missing bounds base exponent
  | .function f _ => apply missing bounds f children
  | e => return e

/-- One step of a pass. -/
def passStep (memo : Memo) (e : Expr) (children : List Expr) : Except Error Expr :=
  match memo.find? e with
  | some canonical => return canonical
  | none => simplifyNode missing bounds e children

/-- Simplifies every subexpression once, children first. -/
def pass (memo : Memo) (e : Expr) : Except Error Expr :=
  e.foldM (passStep missing bounds memo)

/-- Repeats passes. -/
def settle (memo : Memo) (maxPasses : Nat) :
    Nat → List Expr → Expr → Except Error (Expr × List Expr)
  | 0, _, _ => throw (.divergence maxPasses)
  | passes + 1, seen, current => do
    let next ← pass missing bounds memo current
    if next = current then return (next, seen)
    else
      match memo.find? next with
      | some canonical => return (canonical, seen)
      | none => settle memo maxPasses passes (next :: seen) next

/-- The canonical form. -/
def canonicalize (e : Expr) : Memoizing Expr := do
  let memo ← get
  match memo.find? e with
  | some canonical => return canonical
  | none =>
    let (canonical, seen) ← settle missing bounds memo bounds.maxPasses bounds.maxPasses [e] e
    set (memo.record seen canonical)
    return canonical

end Strict

/-! ## Well-formed expressions -/

theorem wellFormed_inherits : Inherits (fun _ => True) WellFormed WellFormed where
  constant c := .node (by simp) (by simp) (by simp) (by simp [children])
  of_add ts := fun ⟨_, _, _, h⟩ => h
  add ts hne hts := .node (by simpa using hne) (by simp) (by simp) hts
  of_mul fs := fun ⟨_, _, _, h⟩ => h
  mul fs hne hfs := .node (by simp) (by simpa using hne) (by simp) hfs
  pow base exponent := by
    constructor
    · rintro ⟨-, -, -, h⟩
      exact ⟨h base (by simp [children]), h exponent (by simp [children])⟩
    · rintro ⟨hbase, hexponent⟩
      exact .node (by simp) (by simp) (by simp) (by simpa [children] using ⟨hbase, hexponent⟩)
  of_function f arguments := fun ⟨_, _, _, h⟩ => ⟨trivial, h⟩
  call f argument hunit _ hargument := by
    refine .node (by simp [call]) (by simp [call]) (fun g as h => ?_)
      (by simpa [call, children] using hargument)
    cases h
    cases f <;> first | rfl | exact absurd rfl hunit
  imaginaryUnit _ := by
    refine .node (by simp [imaginaryUnit]) (by simp [imaginaryUnit]) (fun g as h => ?_)
      (by simp [imaginaryUnit, children])
    cases h
    rfl

theorem wellFormed_function (f : Func) (old new : List Expr) (h : WellFormed (.function f old))
    (hlength : old.length = new.length) (hnew : ∀ a ∈ new, WellFormed a) :
    WellFormed (.function f new) := by
  obtain ⟨-, -, harity, -⟩ := h
  refine .node (by simp) (by simp) (fun g as heq => ?_) hnew
  cases heq
  exact hlength.symm.trans (harity _ _ rfl)

/-! ## Agreement -/

namespace Strict

variable {missing : Error} {bounds : Bounds}

theorem splitCoefficient_eq {e : Expr} (h : e.WellFormed) :
    splitCoefficient missing e = .ok e.splitCoefficient := by
  cases e with
  | mul factors =>
    match factors, h with
    | [], ⟨_, hmul, _, _⟩ => exact absurd rfl hmul
    | f :: fs, _ => cases f <;> rfl
  | _ => rfl

mutual

theorem gather_eq (scale : Rat) (form : LinearForm) (e : Expr) (h : e.WellFormed) :
    gather missing scale form e = .ok (LinearForm.gather scale form e) := by
  unfold gather
  split
  · rfl
  · next terms => exact gatherList_eq scale form terms (wellFormed_inherits.of_add terms h)
  · next c terms =>
    have hadd := wellFormed_inherits.of_mul _ h (.add terms) (by simp)
    exact gatherList_eq (scale * c) form terms (wellFormed_inherits.of_add terms hadd)
  · next hconstant hadd hmul =>
    rw [splitCoefficient_eq h, LinearForm.gather_of_ne scale form hconstant hadd hmul]
    rfl

theorem gatherList_eq (scale : Rat) (form : LinearForm) (es : List Expr)
    (h : ∀ e ∈ es, e.WellFormed) :
    gatherList missing scale form es = .ok (LinearForm.gatherList scale form es) := by
  match es with
  | [] => rfl
  | e :: es =>
    rw [gatherList, gather_eq scale form e (h e (by simp)), LinearForm.gatherList]
    exact gatherList_eq scale _ es fun f hf => h f (by simp [hf])

end

theorem add_eq {ts : List Expr} (h : ∀ t ∈ ts, t.WellFormed) :
    add missing ts = .ok (Canonical.add ts) := by
  rw [add, gatherList_eq 1 .zero ts h]
  rfl

theorem addExponents_eq {es : List Expr} (h : ∀ e ∈ es, e.WellFormed) :
    addExponents missing es = .ok (Canonical.addExponents es) := by
  match es with
  | [e] => rfl
  | [] | _ :: _ :: _ => exact add_eq h

theorem assemble_eq (c : Rat) {powers : List Expr} (h : ∀ p ∈ powers, p.WellFormed) :
    assemble missing c powers = .ok (Canonical.assemble c powers) := by
  unfold assemble Canonical.assemble
  by_cases hc : c = 0
  · rw [if_pos hc, if_pos hc]
    rfl
  rw [if_neg hc, if_neg hc]
  match powers with
  | [] => rfl
  | [.add terms] =>
    dsimp only
    split
    · rfl
    · rw [gatherList_eq c .zero terms (wellFormed_inherits.of_add terms (h _ (by simp)))]
      rfl
  | [.constant _] | [.symbol _] | [.mul _] | [.pow _ _] | [.function _ _] => rfl
  | p :: _ :: _ => cases p <;> rfl

/-- The rules for products agree over rules for powers that agree. -/
theorem multiplyWith_eq {P Q : Expr → Expr → Except Error Expr}
    (hP : ∀ base exponent, base.WellFormed → exponent.WellFormed → P base exponent = Q base exponent)
    (hQ : PowersKeep WellFormed WellFormed Q) {fs : List Expr} (h : ∀ f ∈ fs, f.WellFormed) :
    multiplyWith missing P fs = Canonical.multiplyWith Q fs := by
  have hopened : ∀ f ∈ factorsList fs, f.WellFormed := by
    intro f hf
    obtain ⟨e, he, hf⟩ := mem_factorsList.mp hf
    exact wellFormed_inherits.factors (h e he) hf
  have hcollected := PowerProduct.collected_ofFactors fs
  have hbase : ∀ p ∈ (PowerProduct.ofFactors fs).powers, p.1.WellFormed := by
    intro p hp
    obtain ⟨f, hf, -, hbase⟩ := PowerProduct.exists_factor_of_mem_powers hp
    exact hbase ▸ wellFormed_inherits.factorBase (hopened f hf)
  have hexponents : ∀ p ∈ (PowerProduct.ofFactors fs).powers, ∀ e ∈ p.2, e.WellFormed := by
    intro p hp e he
    obtain ⟨g, hg, -, -, rfl⟩ := hcollected.exists_factor p hp e he
    exact wellFormed_inherits.factorExponent (wellFormed_inherits.constant 1) (hopened g hg)
  have hsum : ∀ p ∈ (PowerProduct.ofFactors fs).powers, (Canonical.addExponents p.2).WellFormed :=
    fun p hp => Inherits.addExponents (fun _ => wellFormed_inherits.add_rule) (hexponents p hp)
  have hpowers : ∀ p ∈ (PowerProduct.ofFactors fs).powers,
      (addExponents missing p.2 >>= fun exponent => P p.1 exponent) =
        Q p.1 (Canonical.addExponents p.2) := by
    intro p hp
    rw [addExponents_eq (hexponents p hp)]
    exact hP _ _ (hbase p hp) (hsum p hp)
  unfold multiplyWith Canonical.multiplyWith
  dsimp only
  split
  · rfl
  rw [mapM_congr hpowers]
  refine bind_congr_of_ok fun powers hall => assemble_eq _ fun q hq => ?_
  obtain ⟨p, hp, hpower⟩ := exists_of_forall₂_right (mapM_eq_ok.mp hall) (List.mem_filter.mp hq).1
  exact hQ _ _ _ hpower (hbase p hp) (hsum p hp)

/-! ## Powers -/

/-- The powers of constants agree over rules for products that do. -/
theorem constantPower_congr {multiply multiply' : List Expr → Except Error Expr}
    (h : ∀ fs, (∀ f ∈ fs, f.WellFormed) → multiply fs = multiply' fs) (b q : Rat) :
    constantPower bounds multiply b q = constantPower bounds multiply' b q := by
  have hconstant := wellFormed_inherits.constant
  by_cases hsplits : Splits bounds b q
  · rw [constantPower_of_splits hsplits, constantPower_of_splits hsplits]
    refine bind_congr_of_ok fun integral _ => h _ fun f hf => ?_
    rcases List.mem_pair.mp hf with rfl | rfl
    · exact hconstant integral
    · exact (wellFormed_inherits.pow _ _).mpr ⟨hconstant b, hconstant _⟩
  · rw [constantPower_of_not_splits hsplits, constantPower_of_not_splits hsplits]

theorem powerWithin_eq (fuel : Nat) {base exponent : Expr} (hbase : base.WellFormed)
    (hexponent : exponent.WellFormed) :
    powerWithin missing bounds fuel base exponent = Canonical.powerWithin bounds fuel base exponent := by
  induction fuel generalizing base exponent with
  | zero => rfl
  | succ fuel ih =>
    have hkeep : PowersKeep WellFormed WellFormed (Canonical.powerWithin bounds fuel) :=
      wellFormed_inherits.closes.powerWithin fuel
    have hproduct {fs : List Expr} (hfs : ∀ f ∈ fs, f.WellFormed) :
        multiplyWith missing (powerWithin missing bounds fuel) fs =
          Canonical.multiplyWith (Canonical.powerWithin bounds fuel) fs :=
      multiplyWith_eq (fun _ _ => ih) hkeep hfs
    unfold powerWithin Canonical.powerWithin
    dsimp only
    split
    · rfl
    split
    · rfl
    cases exponent with
    | constant n =>
      cases base with
      | constant b => exact constantPower_congr (fun _ => hproduct) b n
      | pow inner e =>
        obtain ⟨hinner, he⟩ := (wellFormed_inherits.pow inner e).mp hbase
        have hpair : ∀ f ∈ [e, .constant n], f.WellFormed := by simpa using ⟨he, hexponent⟩
        dsimp only
        split
        · rw [hproduct hpair]
          exact bind_congr_of_ok fun combined hcombined =>
            ih hinner (wellFormed_inherits.closes.multiplyWith hkeep hcombined hpair)
        · rfl
      | mul factors =>
        have hfactors := wellFormed_inherits.of_mul factors hbase
        dsimp only
        split
        · rw [mapM_congr fun f hf => ih (hfactors f hf) hexponent]
          refine bind_congr_of_ok fun powers hpowers => hproduct fun p hp => ?_
          obtain ⟨f, hf, hpower⟩ := exists_of_forall₂_right (mapM_eq_ok.mp hpowers) hp
          exact hkeep _ _ _ hpower (hfactors f hf) hexponent
        · rfl
      | function f arguments => cases f <;> rfl
      | _ => rfl
    | _ => rfl

theorem power_eq {base exponent : Expr} (hbase : base.WellFormed) (hexponent : exponent.WellFormed) :
    power missing bounds base exponent = Canonical.power bounds base exponent :=
  powerWithin_eq _ hbase hexponent

theorem multiply_eq {fs : List Expr} (h : ∀ f ∈ fs, f.WellFormed) :
    multiply missing bounds fs = Canonical.multiply bounds fs :=
  multiplyWith_eq (fun _ _ => powerWithin_eq _) (wellFormed_inherits.closes.powerWithin _) h

/-! ## Functions -/

theorem opposite?_eq {e : Expr} (h : e.WellFormed) :
    opposite? missing bounds e = Canonical.opposite? bounds e := by
  have hminus : multiply missing bounds [.integer (-1), e] =
      Canonical.multiply bounds [.integer (-1), e] :=
    multiply_eq (by simpa using ⟨wellFormed_inherits.constant (-1), h⟩)
  unfold opposite? Canonical.opposite?
  rw [splitCoefficient_eq h, ← hminus]
  rfl

theorem applyBySymmetry_eq (f : Func) {argument : Expr} (h : argument.WellFormed) :
    applyBySymmetry missing bounds f argument = Canonical.applyBySymmetry bounds f argument := by
  have hopposite {positive : Expr} (hr : Canonical.opposite? bounds argument = .ok (some positive)) :
      positive.WellFormed := wellFormed_inherits.closes.opposite hr h
  have hodd (hunit : f ≠ .imaginaryUnit) {positive : Expr} (hpositive : positive.WellFormed) :
      multiply missing bounds [.integer (-1), .call f positive] =
        Canonical.multiply bounds [.integer (-1), .call f positive] :=
    multiply_eq (by
      simpa using ⟨wellFormed_inherits.constant (-1),
        wellFormed_inherits.call f positive hunit trivial hpositive⟩)
  unfold applyBySymmetry Canonical.applyBySymmetry
  cases f with
  | cos => exact opposite?_eq h ▸ rfl
  | sin | tan =>
    dsimp only
    rw [opposite?_eq h]
    refine bind_congr_of_ok fun positive? hr => ?_
    cases positive? with
    | none => rfl
    | some positive => exact hodd (by decide) (hopposite hr)
  | _ => rfl

/-- A function of the argument has one itself, as long as it is not the imaginary unit. -/
theorem first_of_function {g : Func} {us : List Expr} (h : (Expr.function g us).WellFormed)
    (hg : g.arity = 1) : ∃ u, us = [u] := by
  obtain ⟨-, -, harity, -⟩ := h
  exact List.length_eq_one_iff.mp ((harity g us rfl).trans hg)

theorem specialValue?_eq (f : Func) {argument : Expr} (h : argument.WellFormed) :
    specialValue? missing f argument = .ok (Canonical.specialValue? f argument) := by
  unfold specialValue? Canonical.specialValue?
  cases f with
  | exp =>
    dsimp only
    split
    · rfl
    · cases argument with
      | function g us =>
        cases g with
        | ln =>
          obtain ⟨u, rfl⟩ := first_of_function h rfl
          rfl
        | _ => rfl
      | _ => rfl
  | ln =>
    dsimp only
    split
    · rfl
    · cases argument with
      | function g us =>
        cases g with
        | exp =>
          obtain ⟨u, rfl⟩ := first_of_function h rfl
          rfl
        | _ => rfl
      | _ => rfl
  | _ => rfl

theorem apply_eq (f : Func) {arguments : List Expr} (h : ∀ a ∈ arguments, a.WellFormed) :
    apply missing bounds f arguments = Canonical.apply bounds f arguments := by
  cases f with
  | imaginaryUnit => rfl
  | sin | cos | tan | exp | ln =>
    match arguments, h with
    | [argument], h =>
      have hargument := h argument (by simp)
      have hsymmetry (f : Func) : applyBySymmetry missing bounds f argument =
          Canonical.applyBySymmetry bounds f argument := applyBySymmetry_eq f hargument
      unfold apply Canonical.apply
      dsimp only
      rw [specialValue?_eq _ hargument, ← hsymmetry]
      cases Canonical.specialValue? _ argument <;> rfl
    | [], _ | _ :: _ :: _, _ => rfl

/-! ## Nodes and passes -/

theorem simplifyNode_eq {e : Expr} {children : List Expr} (h : e.children.length = children.length)
    (hchildren : ∀ c ∈ children, c.WellFormed) :
    simplifyNode missing bounds e children =
      Canonical.simplifyNode bounds (e.withChildren children) := by
  cases e with
  | constant | symbol => rfl
  | add => exact add_eq hchildren
  | mul => exact multiply_eq hchildren
  | pow =>
    match children, h with
    | [base, exponent], _ => exact power_eq (hchildren base (by simp)) (hchildren exponent (by simp))
  | function f => exact apply_eq f hchildren

theorem pass_eq {memo : Memo} (hmemo : ∀ e c, memo.find? e = some c → e.WellFormed → c.WellFormed)
    {e : Expr} (h : e.WellFormed) : pass missing bounds memo e = Canonical.pass bounds memo e := by
  induction e using Expr.induction with
  | node e ih =>
    have hstrict : pass missing bounds memo e =
        e.children.mapM (pass missing bounds memo) >>= passStep missing bounds memo e :=
      Expr.foldM_eq e
    have hchild : ∀ c ∈ e.children, c.WellFormed := fun _ => wellFormed_inherits.of_mem_children h
    rw [hstrict, Canonical.pass_eq, mapM_congr fun c hc => ih c hc (hchild c hc)]
    refine bind_congr_of_ok fun cs hcs => ?_
    have hpasses := mapM_eq_ok.mp hcs
    unfold passStep Canonical.passStep
    cases hfind : memo.find? e with
    | some canonical => rfl
    | none =>
      refine simplifyNode_eq hpasses.length_eq fun c hc => ?_
      obtain ⟨child, hmem, hpass⟩ := exists_of_forall₂_right hpasses hc
      exact wellFormed_inherits.pass wellFormed_function hmemo hpass (hchild child hmem)

theorem settle_eq {memo : Memo} (hmemo : ∀ e c, memo.find? e = some c → e.WellFormed → c.WellFormed)
    (maxPasses passes : Nat) (seen : List Expr) {e : Expr} (h : e.WellFormed) :
    settle missing bounds memo maxPasses passes seen e =
      Canonical.settle bounds memo maxPasses passes seen e := by
  induction passes generalizing seen e with
  | zero => rfl
  | succ passes ih =>
    rw [settle, Canonical.settle, pass_eq hmemo h]
    refine bind_congr_of_ok fun next hpass => ?_
    split
    · rfl
    · cases hfind : memo.find? next with
      | some canonical => rfl
      | none => exact ih _ (wellFormed_inherits.pass wellFormed_function hmemo hpass h)

/-- No child is missing in the canonicalization of a well-formed expression. -/
theorem canonicalize_eq {memo : Memo} (hmemo : memo.Reachable bounds) {e : Expr} (h : e.WellFormed) :
    (canonicalize missing bounds e).run.run memo =
      (ClosedForm.canonicalize bounds e).run.run memo := by
  have hentries : ∀ e c, memo.find? e = some c → e.WellFormed → c.WellFormed := fun _ _ hfind =>
    wellFormed_inherits.find? wellFormed_function hmemo hfind
  have hget {α : Type} (next : Memo → Memoizing α) :
      ((get : Memoizing Memo) >>= next).run.run memo = (next memo).run.run memo := rfl
  unfold canonicalize ClosedForm.canonicalize canonicalizeWithin
  rw [hget, hget]
  cases hfind : memo.find? e with
  | some canonical => rfl
  | none =>
    dsimp only
    rw [settle_eq hentries _ _ _ h]

end Strict

end Canonical

/-! ## Outcomes -/

/-- Every form that a well-formed expression goes through is well-formed, so the passes over it fail only
as the rules do. -/
theorem Canonical.error_of_settle {bounds : Bounds} (hbounds : bounds.InRange) {memo : Memo}
    (hentries : ∀ e c, memo.find? e = some c → e.WellFormed → c.WellFormed) {maxPasses passes : Nat}
    {seen : List Expr} {e : Expr} (he : e.WellFormed) {x : Error}
    (h : settle bounds memo maxPasses passes seen e = .error x) :
    x = .divergence maxPasses ∨ x.IsRuleFailure (SettleAsks bounds memo passes e) := by
  induction passes generalizing seen e with
  | zero =>
    cases h
    exact .inl rfl
  | succ passes ih =>
    rw [settle, bind_eq_error] at h
    rcases h with h | ⟨next, hpass, h⟩
    · exact .inr ((error_of_pass hbounds he.hasArities h).mono fun _ _ => .pass)
    split at h
    · cases h
    next hne =>
    split at h
    · cases h
    next hfind =>
    have hnext := wellFormed_inherits.pass wellFormed_function hentries hpass he
    exact (ih hnext h).imp_right fun hx => hx.mono fun _ _ => .next hpass hne hfind

theorem error_of_canonicalize {bounds : Bounds} (hbounds : bounds.InRange) {memo : Memo}
    (hmemo : memo.Reachable bounds) {e : Expr} (he : e.WellFormed) {x : Error}
    (h : ((canonicalize bounds e).run.run memo).1 = .error x) :
    x = .divergence bounds.maxPasses ∨ x.IsRuleFailure (Canonical.Asks bounds memo e) := by
  unfold canonicalize at h
  rw [run_canonicalizeWithin] at h
  split at h
  · cases h
  next hfind =>
  split at h
  · cases h
  next hsettle =>
  cases h
  have hentries : ∀ e c, memo.find? e = some c → e.WellFormed → c.WellFormed := fun _ _ =>
    Canonical.wellFormed_inherits.find? Canonical.wellFormed_function hmemo
  exact (Canonical.error_of_settle hbounds hentries he hsettle).imp_right fun hx =>
    hx.mono fun _ _ hasks => ⟨hfind, hasks⟩

/-- The form of `ln(exp(x))` is found without a power of constants. -/
theorem Canonical.not_asks_logarithm (b q : Rat) :
    ¬ Canonical.Asks {} .empty (.call .ln (.call .exp (.symbol "x"))) b q := by
  rintro ⟨-, hasks⟩
  have hfirst : Canonical.pass {} .empty (.call .ln (.call .exp (.symbol "x"))) = .ok (.symbol "x") := by
    cbv
  have hsecond : Canonical.pass {} .empty (.symbol "x") = .ok (.symbol "x") := by
    cbv
  cases hasks with
  | pass hasks =>
    exact Canonical.not_passAsks_symbol "x" ((hasks.argument (by decide)).argument (by decide))
  | next hpass _ _ hasks =>
    cases hfirst.symm.trans hpass
    cases hasks with
    | pass hasks => exact Canonical.not_passAsks_symbol "x" hasks
    | next hpass hne =>
      cases hsecond.symm.trans hpass
      exact hne rfl

namespace Session

/-- The canonicalization of a well-formed expression gives a well-formed expression, or it fails by a
division by zero or at the bound on the passes, unless it comes to a power of constants with the least
64-bit integer as the numerator of the exponent. No rule looks for a child that is not there. -/
theorem canonicalize_safe {bounds : Bounds} (hbounds : bounds.InRange) {session : Session}
    (hsession : session.Reachable bounds) {handle : Handle}
    (hwf : (session.pool.expr handle).WellFormed)
    (hexponents : ∀ b q, Canonical.Asks bounds session.memo (session.pool.expr handle) b q →
      q.num ≠ Rational.leastInt64) :
    ((∃ result later, session.answer (canonicalize handle) = (.ok result, later) ∧
        result < later.pool.size ∧ (later.pool.expr result).WellFormed) ∨
      (session.answer (canonicalize handle)).1 = .error .divisionByZero ∨
      (session.answer (canonicalize handle)).1 = .error (.divergence bounds.maxPasses)) ∧
    ∀ missing : Error,
      (Canonical.Strict.canonicalize missing bounds (session.pool.expr handle)).run.run session.memo =
        (ClosedForm.canonicalize bounds (session.pool.expr handle)).run.run session.memo := by
  have hmemo := hsession.consistent.memo
  refine ⟨?_, fun missing => Canonical.Strict.canonicalize_eq hmemo hwf⟩
  cases hrun : ((ClosedForm.canonicalize bounds (session.pool.expr handle)).run.run
      session.memo).1 with
  | ok c =>
    obtain ⟨result, later, hanswer, hsize, hresult⟩ := canonicalize_ok hsession.consistent hrun
    refine .inl ⟨result, later, hanswer, hsize, ?_⟩
    rw [hresult]
    exact Canonical.wellFormed_inherits.run Canonical.wellFormed_function hmemo hrun hwf
  | error x =>
    have hspec := canonicalize_spec hsession.consistent handle
    rw [hrun] at hspec
    rcases error_of_canonicalize hbounds hmemo hwf hrun with rfl | rfl | ⟨rfl, b, q, hasks, hleast⟩
    · exact .inr (.inr hspec)
    · exact .inr (.inl hspec)
    · exact absurd hleast (hexponents b q hasks)

/-- `ln(exp(x))`, whose canonical form is read off the argument of the argument. -/
theorem canonicalize_safe_text :
    ∃ (session later : Session) (handle result : Handle), session.Reachable {} ∧
      session.pool.expr handle = .call .ln (.call .exp (.symbol "x")) ∧
      session.answer (canonicalize handle) = (.ok result, later) ∧
      (later.pool.expr result).WellFormed ∧
      ∀ missing : Error, ((Canonical.Strict.canonicalize missing {}
        (.call .ln (.call .exp (.symbol "x")))).run.run session.memo).1 = .ok (.symbol "x") := by
  have hread : Formula.read "ln(exp(x))" = .ok (.call .ln (.call .exp (.symbol "x"))) := by
    cbv
  have hrun : ((ClosedForm.canonicalize {} (.call .ln (.call .exp (.symbol "x")))).run.run .empty).1 =
      .ok (.symbol "x") := by
    cbv
  obtain ⟨session, handle, hreachable, hexpr, hmemo⟩ := exists_parsed {} hread
  have hexponents : ∀ b q, Canonical.Asks {} session.memo (session.pool.expr handle) b q →
      q.num ≠ Rational.leastInt64 := by
    rw [hexpr, hmemo]
    exact fun b q hasks => absurd hasks (Canonical.not_asks_logarithm b q)
  have hwf : (session.pool.expr handle).WellFormed := by
    have hx : (Expr.symbol "x").WellFormed :=
      .node (by simp) (by simp) (by simp) (by simp [Expr.children])
    have hcall := Canonical.wellFormed_inherits.call
    rw [hexpr]
    exact hcall .ln _ (by decide) trivial (hcall .exp _ (by decide) trivial hx)
  rw [← hexpr, ← hmemo] at hrun
  have hspec := canonicalize_spec hreachable.consistent handle
  rw [hrun] at hspec
  obtain ⟨_, hok, -⟩ := hspec
  obtain ⟨houtcome, hstrict⟩ :=
    canonicalize_safe (by unfold Bounds.InRange; decide) hreachable hwf hexponents
  rw [hexpr, hmemo] at hstrict
  rcases houtcome with ⟨result, later, hanswer, -, hresult⟩ | hfails | hfails
  · refine ⟨session, later, handle, result, hreachable, hexpr, hanswer, hresult, fun missing => ?_⟩
    rw [hmemo, hstrict, ← hexpr, ← hmemo]
    exact hrun
  · cases hok.symm.trans hfails
  · cases hok.symm.trans hfails

end Session

end ClosedForm
