import ClosedForm.Proofs.Functions
import ClosedForm.Proofs.Nesting
import ClosedForm.Proofs.Settling

/-!
# Properties that the rules keep

A property of expressions is inherited (`Inherits`) if it passes from a node to its parts and back: to
the function at the head, the exponent of a power, and the other children, for which it is the
property itself. Sums and products without children may be left out. It is `Hereditary` if the parts
decide it for every node. The rules take nodes apart, collect exponents, and put the parts together
again, so they keep such a property as soon as the property of the exponents survives what happens to
exponents (`Closes`, `Closed`).

`Closes.simplifyNode` says it of all rules. What is to be proved of the exponents is small where
they are constants, and where they have the property itself the rules for sums and products of an
inherited property are enough for it.
-/

namespace ClosedForm

open ClosedForm.Expr

namespace Canonical

/-- `R` passes from a node to its parts, and back to a node with children: `H` is asked of its
function, `E` of its exponent and `R` of its other children. -/
structure Inherits (H : Func → Prop) (R E : Expr → Prop) : Prop where
  constant : ∀ c, R (.constant c)
  of_add : ∀ ts, R (.add ts) → ∀ t ∈ ts, R t
  add : ∀ ts, ts ≠ [] → (∀ t ∈ ts, R t) → R (.add ts)
  of_mul : ∀ fs, R (.mul fs) → ∀ f ∈ fs, R f
  mul : ∀ fs, fs ≠ [] → (∀ f ∈ fs, R f) → R (.mul fs)
  pow : ∀ base exponent, R (.pow base exponent) ↔ R base ∧ E exponent
  of_function : ∀ f arguments, R (.function f arguments) → H f ∧ ∀ a ∈ arguments, R a
  call : ∀ f argument, f ≠ .imaginaryUnit → H f → R argument → R (.call f argument)
  imaginaryUnit : H .imaginaryUnit → R .imaginaryUnit

/-- `R` holds of a node where `H` holds of its function, `E` of its exponent and `R` of its other
children. -/
structure Hereditary (H : Func → Prop) (R E : Expr → Prop) : Prop where
  constant : ∀ c, R (.constant c)
  add : ∀ ts, R (.add ts) ↔ ∀ t ∈ ts, R t
  mul : ∀ fs, R (.mul fs) ↔ ∀ f ∈ fs, R f
  pow : ∀ base exponent, R (.pow base exponent) ↔ R base ∧ E exponent
  function : ∀ f arguments, R (.function f arguments) ↔ H f ∧ ∀ a ∈ arguments, R a

theorem Hereditary.inherits {H : Func → Prop} {R E : Expr → Prop} (h : Hereditary H R E) :
    Inherits H R E where
  constant := h.constant
  of_add ts := (h.add ts).mp
  add ts _ := (h.add ts).mpr
  of_mul fs := (h.mul fs).mp
  mul fs _ := (h.mul fs).mpr
  pow := h.pow
  of_function f arguments := (h.function f arguments).mp
  call f argument _ hf hargument := (h.function f [argument]).mpr ⟨hf, by simpa using hargument⟩
  imaginaryUnit hf := (h.function _ []).mpr ⟨hf, by simp⟩

/-- A rule for powers that stays within `R` for exponents in `E`. -/
def PowersKeep (R E : Expr → Prop) (P : Expr → Expr → Except Error Expr) : Prop :=
  ∀ base exponent r, P base exponent = .ok r → R base → E exponent → R r

variable {H : Func → Prop} {R E : Expr → Prop} {bounds : Bounds}

namespace Inherits

variable (h : Inherits H R E)

include h

theorem sum {ts : List Expr} (hts : ∀ t ∈ ts, R t) : R (Expr.sum ts) := by
  match ts with
  | [] => exact h.constant 0
  | [t] => exact hts t (by simp)
  | _ :: _ :: _ => exact h.add _ (by simp) hts

theorem product {fs : List Expr} (hfs : ∀ f ∈ fs, R f) : R (Expr.product fs) := by
  match fs with
  | [] => exact h.constant 1
  | [f] => exact hfs f (by simp)
  | _ :: _ :: _ => exact h.mul _ (by simp) hfs

theorem neg {e : Expr} (he : R e) : R (.neg e) :=
  h.mul _ (by simp) (by simpa using ⟨h.constant _, he⟩)

theorem splitCoefficient {e : Expr} (he : R e) : R e.splitCoefficient.2 := by
  unfold Expr.splitCoefficient
  split
  · exact h.constant 1
  · exact h.product fun f hf => h.of_mul _ he f (by simp [hf])
  · exact he

theorem scale {e : Expr} (c : Rat) (he : R e) : R (e.scale c) := by
  unfold Expr.scale
  split
  · exact he
  · split
    · exact h.product (by simpa [h.constant] using h.of_mul _ he)
    · exact h.product (by simpa [h.constant] using he)

theorem factors {e f : Expr} (he : R e) (hf : f ∈ e.factors) : R f :=
  holds_of_mem_factors h.of_mul he hf

theorem factorBase {f : Expr} (hf : R f) : R (Expr.factorBase f) := by
  cases f with
  | pow base exponent => exact ((h.pow _ _).mp hf).1
  | _ => exact hf

theorem factorExponent (hone : E .one) {f : Expr} (hf : R f) : E (Expr.factorExponent f) := by
  cases f with
  | pow base exponent => exact ((h.pow _ _).mp hf).2
  | _ => exact hone

/-! ## Sums -/

theorem gatherList (scale : Rat) {form : LinearForm} (hform : ∀ t ∈ form.terms, R t.1) (es : List Expr)
    (hes : ∀ e ∈ es, R e) : ∀ t ∈ (LinearForm.gatherList scale form es).terms, R t.1 :=
  LinearForm.Gathers.gatherList (.of_rests (h.of_add _) (fun he => h.of_mul _ he _ (by simp))
    fun he _ _ => h.splitCoefficient he) scale hform es hes

theorem toExpr {form : LinearForm} (hform : ∀ t ∈ form.terms, R t.1) : R form.toExpr := by
  refine h.sum fun e he => ?_
  rw [mem_sort, List.mem_append, List.mem_filterMap] at he
  rcases he with he | ⟨t, ht, heq⟩
  · split at he
    · cases he
    · rw [List.mem_singleton.mp he]
      exact h.constant _
  · split at heq
    · cases heq
    · cases heq
      exact h.scale _ (hform t ht)

theorem gathered (scale : Rat) {es : List Expr} (hes : ∀ e ∈ es, R e) :
    R (LinearForm.gatherList scale .zero es).toExpr :=
  h.toExpr (h.gatherList scale (by simp [LinearForm.zero]) es hes)

/-- The rule for sums. -/
theorem add_rule {ts : List Expr} (hts : ∀ t ∈ ts, R t) : R (Canonical.add ts) :=
  h.gathered 1 hts

/-! ## Products -/

omit h in
theorem addExponents (hsum : ∀ es, (∀ e ∈ es, E e) → E (Canonical.add es)) {es : List Expr}
    (hes : ∀ e ∈ es, E e) : E (Canonical.addExponents es) := by
  unfold Canonical.addExponents
  split
  · exact hes _ (List.mem_singleton_self _)
  · exact hsum _ hes

theorem assemble (c : Rat) {powers : List Expr} (hpowers : ∀ q ∈ powers, R q) :
    R (Canonical.assemble c powers) := by
  unfold Canonical.assemble
  split
  · exact h.constant 0
  · split
    · exact h.constant c
    · next terms =>
      have hterms : ∀ t ∈ terms, R t := h.of_add _ (hpowers _ (by simp))
      split
      · exact hpowers _ (by simp)
      · exact h.gathered c hterms
    · refine h.product fun f hf => ?_
      rw [mem_sort] at hf
      split at hf
      · exact hpowers f hf
      · rcases List.mem_append.mp hf with hf | hf
        · exact hpowers f hf
        · rw [List.mem_singleton.mp hf]
          exact h.constant c

/-- The rule for products, over a rule for powers that keeps the property. -/
theorem multiplyWith (hone : E .one) (hsum : ∀ es, (∀ e ∈ es, E e) → E (Canonical.add es))
    {P : Expr → Expr → Except Error Expr} (hP : PowersKeep R E P) {fs : List Expr} {r : Expr}
    (hr : Canonical.multiplyWith P fs = .ok r) (hfs : ∀ f ∈ fs, R f) : R r := by
  have hopened : ∀ f ∈ factorsList fs, R f := by
    intro f hf
    obtain ⟨e, he, hf⟩ := mem_factorsList.mp hf
    exact h.factors (hfs e he) hf
  rcases multiplyWith_eq_ok.mp hr with ⟨-, rfl⟩ | ⟨-, ps, hps, rfl⟩
  · exact h.constant 0
  · refine h.assemble _ fun q hq => ?_
    obtain ⟨t, ht, hpower⟩ := exists_of_forall₂_right hps (List.mem_filter.mp hq).1
    have hcollected := PowerProduct.collected_ofFactors fs
    obtain ⟨f, hf, -, hbase⟩ := PowerProduct.exists_factor_of_mem_powers ht
    have hexponents : ∀ e ∈ t.2, E e := by
      intro e he
      obtain ⟨g, hg, -, -, rfl⟩ := hcollected.exists_factor t ht e he
      exact h.factorExponent hone (hopened g hg)
    exact hP _ _ _ hpower (hbase ▸ h.factorBase (hopened f hf)) (addExponents hsum hexponents)

end Inherits

/-- An inherited property together with one of the exponents that is kept by what the rules do to
exponents: they add them, multiply them by integers, and give a constant base the fractional part
of a constant exponent. -/
structure Closes (H : Func → Prop) (R E : Expr → Prop) : Prop extends Inherits H R E where
  one : E .one
  sum : ∀ es, (∀ e ∈ es, E e) → E (Canonical.add es)
  fraction : ∀ q p, Rational.isInteger q = false → E (.constant q) → E (.constant p)
  multiple : ∀ {P : Expr → Expr → Except Error Expr}, PowersKeep R E P → ∀ {e r : Expr} {n : Rat},
    Rational.isInteger n = true → Canonical.multiplyWith P [e, .constant n] = .ok r → E e →
      E (.constant n) → E r

/-- The same for a hereditary property. -/
structure Closed (H : Func → Prop) (R E : Expr → Prop) : Prop extends Hereditary H R E where
  one : E .one
  sum : ∀ es, (∀ e ∈ es, E e) → E (Canonical.add es)
  fraction : ∀ q p, Rational.isInteger q = false → E (.constant q) → E (.constant p)
  multiple : ∀ {P : Expr → Expr → Except Error Expr}, PowersKeep R E P → ∀ {e r : Expr} {n : Rat},
    Rational.isInteger n = true → Canonical.multiplyWith P [e, .constant n] = .ok r → E e →
      E (.constant n) → E r

namespace Closes

variable (h : Closes H R E)

include h

theorem multiplyWith {P : Expr → Expr → Except Error Expr} (hP : PowersKeep R E P) {fs : List Expr}
    {r : Expr} (hr : Canonical.multiplyWith P fs = .ok r) (hfs : ∀ f ∈ fs, R f) : R r :=
  h.toInherits.multiplyWith h.one h.sum hP hr hfs

/-! ## Powers -/

theorem radical {b q : Rat} (hq : E (.constant q)) : R (Canonical.radical b q) := by
  have hpow : ∀ c : Rat, R (.pow (.constant c) (.constant q)) :=
    fun c => (h.pow _ _).mpr ⟨h.constant c, hq⟩
  unfold Canonical.radical
  dsimp only
  split
  · exact hpow b
  · exact h.mul _ (by simp) (by simpa using ⟨h.constant _, hpow _⟩)

theorem constantPower {P : Expr → Expr → Except Error Expr} (hP : PowersKeep R E P) {b q : Rat}
    {r : Expr} (hr : Canonical.constantPower bounds (Canonical.multiplyWith P) b q = .ok r)
    (hq : E (.constant q)) : R r := by
  have houtcome : ConstantOutcome bounds (Canonical.multiplyWith P) b q _ :=
    constantPower_outcome _ b q
  rw [hr] at houtcome
  generalize hresult : Except.ok r = result at houtcome
  cases houtcome with
  | integer | root =>
    obtain ⟨c, -, hc⟩ := bind_eq_ok.mp hresult.symm
    cases hc
    exact h.constant c
  | zero =>
    cases hresult
    exact h.constant 0
  | refused | undefined => cases hresult
  | split hsplits =>
    obtain ⟨integral, -, hi⟩ := bind_eq_ok.mp hresult.symm
    refine h.multiplyWith hP hi fun f hf => ?_
    rw [splitPower, List.mem_pair] at hf
    rcases hf with rfl | rfl
    · exact h.constant _
    · exact (h.pow _ _).mpr ⟨h.constant b, h.fraction q _ hsplits.not_isInteger hq⟩
  | radical =>
    cases hresult
    exact h.radical hq
  | kept =>
    cases hresult
    exact (h.pow _ _).mpr ⟨h.constant b, hq⟩

theorem imaginaryPower (hunit : R .imaginaryUnit) (n : Int) : R (Canonical.imaginaryPower n) := by
  unfold Canonical.imaginaryPower
  split
  · exact h.constant _
  · exact hunit
  · exact h.constant _
  · exact h.neg hunit

theorem outcome {P : Expr → Expr → Except Error Expr} (hP : PowersKeep R E P) {base exponent : Expr}
    {result : Except Error Expr} (houtcome : PowerOutcome bounds P base exponent result) {r : Expr}
    (hr : result = .ok r) (hbase : R base) (hexponent : E exponent) : R r := by
  cases houtcome with
  | one =>
    cases hr
    exact h.constant 1
  | base =>
    cases hr
    exact hbase
  | constants => exact h.constantPower hP hr hexponent
  | nested hn =>
    obtain ⟨hinner, he⟩ := (h.pow _ _).mp hbase
    obtain ⟨combined, hcombined, hr⟩ := bind_eq_ok.mp hr
    exact hP _ _ _ hr hinner (h.multiple hP hn hcombined he hexponent)
  | spread =>
    obtain ⟨powers, hpowers, hr⟩ := bind_eq_ok.mp hr
    refine h.multiplyWith hP hr fun q hq => ?_
    obtain ⟨f, hf, hpower⟩ := exists_of_forall₂_right (mapM_eq_ok.mp hpowers) hq
    exact hP _ _ _ hpower (h.of_mul _ hbase f hf) hexponent
  | imaginary =>
    cases hr
    exact h.imaginaryPower (h.imaginaryUnit (h.of_function _ _ hbase).1) _
  | inert =>
    cases hr
    exact (h.pow _ _).mpr ⟨hbase, hexponent⟩

theorem powerWithin (fuel : Nat) : PowersKeep R E (powerWithin bounds fuel) := by
  induction fuel with
  | zero =>
    rintro base exponent r ⟨⟩ hbase hexponent
    exact (h.pow _ _).mpr ⟨hbase, hexponent⟩
  | succ fuel ih =>
    exact fun base exponent r hr => h.outcome ih (powerStep_outcome base exponent) hr

/-- The rule for powers. -/
theorem power {base exponent r : Expr} (hr : Canonical.power bounds base exponent = .ok r)
    (hbase : R base) (hexponent : E exponent) : R r :=
  h.powerWithin _ _ _ _ hr hbase hexponent

/-- The rule for products. -/
theorem multiply {fs : List Expr} {r : Expr} (hr : Canonical.multiply bounds fs = .ok r)
    (hfs : ∀ f ∈ fs, R f) : R r :=
  h.multiplyWith (h.powerWithin _) hr hfs

/-! ## Functions -/

theorem specialValue {f : Func} {argument value : Expr} (hvalue : SpecialValue f argument value)
    (hargument : R argument) : R value := by
  cases hvalue with
  | sin | tan | ln => exact h.constant 0
  | cos | exp => exact h.constant 1
  | exp_ln | ln_exp => exact (h.of_function _ _ hargument).2 value (by simp)

theorem minus {e r : Expr} (hr : Canonical.multiply bounds [.integer (-1), e] = .ok r) (he : R e) :
    R r :=
  h.multiply hr (by simpa using ⟨h.constant _, he⟩)

theorem opposite {e r : Expr} (hr : opposite? bounds e = .ok (some r)) (he : R e) : R r := by
  unfold opposite? at hr
  split at hr
  · obtain ⟨_, hminus, hr⟩ := bind_eq_ok.mp hr
    cases hr
    exact h.minus hminus he
  · cases hr

theorem apply {f : Func} {arguments : List Expr} {r : Expr}
    (hr : Canonical.apply bounds f arguments = .ok r) (hnode : R (.function f arguments)) : R r := by
  obtain ⟨hf, harguments⟩ := h.of_function _ _ hnode
  have houtcome := hr ▸ apply_outcome bounds f arguments
  generalize hresult : Except.ok r = result at houtcome
  cases houtcome with
  | unit =>
    cases hresult
    exact h.imaginaryUnit hf
  | special hvalue =>
    cases hresult
    exact h.specialValue hvalue (harguments _ (by simp))
  | kept hunit =>
    cases hresult
    exact h.call _ _ hunit hf (harguments _ (by simp))
  | even =>
    obtain ⟨positive, hpositive, hr⟩ := bind_eq_ok.mp hresult.symm
    cases hr
    exact h.call _ _ (by simp) hf (h.minus hpositive (harguments _ (by simp)))
  | odd hodd =>
    obtain ⟨positive, hpositive, hminus⟩ := bind_eq_ok.mp hresult.symm
    have hunit : f ≠ .imaginaryUnit := by rcases hodd with rfl | rfl <;> simp
    exact h.minus hminus (h.call _ _ hunit hf (h.minus hpositive (harguments _ (by simp))))
  | arity => cases hresult

/-- No rule leaves the property. -/
theorem simplifyNode {e r : Expr} (hr : Canonical.simplifyNode bounds e = .ok r) (he : R e) :
    R r := by
  cases e with
  | constant | symbol =>
    cases hr
    exact he
  | add ts =>
    cases hr
    exact h.add_rule (h.of_add _ he)
  | mul fs => exact h.multiply hr (h.of_mul _ he)
  | pow base exponent => exact h.power hr ((h.pow _ _).mp he).1 ((h.pow _ _).mp he).2
  | function f arguments => exact h.apply hr he

end Closes

/-! ## One property of all parts -/

namespace Inherits

variable (h : Inherits H R R)

include h

/-- The property of the exponents is kept if it is the same. -/
theorem closes : Closes H R R where
  toInherits := h
  one := h.constant 1
  sum _ hes := h.add_rule hes
  fraction _ p _ _ := h.constant p
  multiple hP _ _ _ _ hr he hn :=
    h.multiplyWith (h.constant 1) (fun _ => h.add_rule) hP hr (by simpa using ⟨he, hn⟩)

theorem of_mem_children {e c : Expr} (he : R e) (hc : c ∈ e.children) : R c := by
  cases e with
  | constant | symbol => cases hc
  | add ts => exact h.of_add ts he c hc
  | mul fs => exact h.of_mul fs he c hc
  | pow base exponent =>
    obtain ⟨hbase, hexponent⟩ := (h.pow base exponent).mp he
    rcases List.mem_pair.mp hc with rfl | rfl
    · exact hbase
    · exact hexponent
  | function f arguments => exact (h.of_function f arguments he).2 c hc

variable (hfunction : ∀ f old new, R (.function f old) → old.length = new.length →
  (∀ a ∈ new, R a) → R (.function f new))

include hfunction

/-- Other children with the property can be put in, as many as there were. -/
theorem withChildren {e : Expr} (he : R e) {cs : List Expr}
    (hlength : e.children.length = cs.length) (hcs : ∀ c ∈ cs, R c) : R (e.withChildren cs) := by
  cases e with
  | constant | symbol => exact he
  | add ts =>
    match cs, hcs, hlength with
    | [], _, hlength =>
      obtain rfl : ts = [] := List.length_eq_zero_iff.mp hlength
      exact he
    | c :: cs, hcs, _ => exact h.add _ (by simp) hcs
  | mul fs =>
    match cs, hcs, hlength with
    | [], _, hlength =>
      obtain rfl : fs = [] := List.length_eq_zero_iff.mp hlength
      exact he
    | c :: cs, hcs, _ => exact h.mul _ (by simp) hcs
  | pow base exponent =>
    match cs, hlength with
    | [b, x], _ => exact (h.pow b x).mpr ⟨hcs b (by simp), hcs x (by simp)⟩
  | function f arguments => exact hfunction f arguments cs he hlength hcs

/-- A pass keeps the property if the entries of the memo do. -/
theorem pass {memo : Memo} (hmemo : ∀ e c, memo.find? e = some c → R e → R c) {e r : Expr}
    (hpass : Canonical.pass bounds memo e = .ok r) (he : R e) : R r := by
  induction e using Expr.induction generalizing r with
  | node e ih =>
    rw [pass_eq, bind_eq_ok] at hpass
    obtain ⟨cs, hcs, hpass⟩ := hpass
    cases hfind : memo.find? e with
    | some canonical =>
      rw [passStep_of_find hfind] at hpass
      cases hpass
      exact hmemo e _ hfind he
    | none =>
      rw [passStep_of_not_find hfind] at hpass
      have hpasses := mapM_eq_ok.mp hcs
      refine h.closes.simplifyNode hpass (h.withChildren hfunction he hpasses.length_eq fun c hc => ?_)
      obtain ⟨child, hchild, hpass⟩ := exists_of_forall₂_right hpasses hc
      exact ih child hchild hpass (h.of_mem_children he hchild)

/-- The entries of a reachable memo keep the property. -/
theorem find? {memo : Memo} (hmemo : memo.Reachable bounds) {e c : Expr}
    (hfind : memo.find? e = some c) : R e → R c :=
  hmemo.related (R := fun e c => R e → R c) (fun _ h => h) (fun hab hbc ha => hbc (hab ha))
    (fun _ _ hentries _ _ hpass => h.pass hfunction hentries hpass) hfind

/-- Canonicalization keeps the property. -/
theorem run {memo : Memo} (hmemo : memo.Reachable bounds) {e c : Expr}
    (hrun : ((canonicalize bounds e).run.run memo).1 = .ok c) : R e → R c :=
  hmemo.related_run (R := fun e c => R e → R c) (fun _ h => h) (fun hab hbc ha => hbc (hab ha))
    (fun _ _ hentries _ _ hpass => h.pass hfunction hentries hpass) hrun

end Inherits

/-! ## Hereditary properties -/

namespace Hereditary

variable (h : Hereditary H R E)

include h

theorem sum {ts : List Expr} (hts : ∀ t ∈ ts, R t) : R (Expr.sum ts) :=
  h.inherits.sum hts

theorem product {fs : List Expr} (hfs : ∀ f ∈ fs, R f) : R (Expr.product fs) :=
  h.inherits.product hfs

theorem neg {e : Expr} (he : R e) : R (.neg e) :=
  h.inherits.neg he

theorem add_rule {ts : List Expr} (hts : ∀ t ∈ ts, R t) : R (Canonical.add ts) :=
  h.inherits.add_rule hts

theorem multiplyWith (hone : E .one) (hsum : ∀ es, (∀ e ∈ es, E e) → E (Canonical.add es))
    {P : Expr → Expr → Except Error Expr} (hP : PowersKeep R E P) {fs : List Expr} {r : Expr}
    (hr : Canonical.multiplyWith P fs = .ok r) (hfs : ∀ f ∈ fs, R f) : R r :=
  h.inherits.multiplyWith hone hsum hP hr hfs

end Hereditary

namespace Closed

variable (h : Closed H R E)

include h

theorem closes : Closes H R E where
  toInherits := h.inherits
  one := h.one
  sum := h.sum
  fraction := h.fraction
  multiple := h.multiple

theorem power {base exponent r : Expr} (hr : Canonical.power bounds base exponent = .ok r)
    (hbase : R base) (hexponent : E exponent) : R r :=
  h.closes.power hr hbase hexponent

theorem multiply {fs : List Expr} {r : Expr} (hr : Canonical.multiply bounds fs = .ok r)
    (hfs : ∀ f ∈ fs, R f) : R r :=
  h.closes.multiply hr hfs

theorem simplifyNode {e r : Expr} (hr : Canonical.simplifyNode bounds e = .ok r) (he : R e) :
    R r :=
  h.closes.simplifyNode hr he

end Closed

end Canonical

end ClosedForm
