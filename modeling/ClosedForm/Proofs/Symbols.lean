import ClosedForm.Proofs.Closure
import ClosedForm.Proofs.Value.Interpretation
import ClosedForm.Substitute

/-!
# The symbols of expressions

An expression is `Over` a property of names if all symbols that occur in it have the property.
The rules bring no symbol in that was not there before (`Canonical.over_closed`), so neither does
a canonical form, whatever reachable memo it comes from (`Memo.Reachable.over_run`).

The value of an expression depends on the symbols that occur only (`Interpretation.value_congr`), and
replacing symbols by expressions is to give them the values of these
(`Interpretation.value_replaceSymbols`).
-/

namespace ClosedForm

namespace Expr

/-- All symbols that occur have the property. -/
def Over (p : String → Prop) (e : Expr) : Prop :=
  ∀ name, e.contains name = true → p name

variable {p : String → Prop}

theorem contains_symbol (name other : String) :
    (symbol other).contains name = true ↔ other = name := by
  simp [contains, recurse]

/-- A symbol occurs in a node that is no symbol if it occurs in a child. -/
theorem contains_iff {e : Expr} (h : ∀ other, e ≠ symbol other) (name : String) :
    e.contains name = true ↔ ∃ c ∈ e.children, c.contains name = true := by
  unfold contains
  rw [recurse_eq]
  cases e with
  | symbol other => exact absurd rfl (h other)
  | _ => simp [List.any_map, List.any_eq_true]

theorem over_symbol {name : String} : Over p (symbol name) ↔ p name := by
  simp [Over, contains_symbol]

/-- All symbols of a node are symbols of its children, unless it is one itself. -/
theorem over_iff {e : Expr} (h : ∀ other, e ≠ symbol other) :
    Over p e ↔ ∀ c ∈ e.children, Over p c := by
  simp only [Over, contains_iff h]
  exact ⟨fun he c hc name hname => he name ⟨c, hc, hname⟩,
    fun hc name ⟨c, hmem, hname⟩ => hc c hmem name hname⟩

@[simp] theorem over_constant (c : Rat) : Over p (constant c) := by
  simp [over_iff, children]

@[simp] theorem over_zero : Over p zero := over_constant 0

@[simp] theorem over_one : Over p one := over_constant 1

@[simp] theorem over_integer (n : Int) : Over p (integer n) := over_constant n

@[simp] theorem over_imaginaryUnit : Over p imaginaryUnit := by
  simp [over_iff, imaginaryUnit, children]

@[simp] theorem over_add {ts : List Expr} : Over p (add ts) ↔ ∀ t ∈ ts, Over p t :=
  over_iff (by simp)

@[simp] theorem over_mul {fs : List Expr} : Over p (mul fs) ↔ ∀ f ∈ fs, Over p f :=
  over_iff (by simp)

@[simp] theorem over_pow {base exponent : Expr} :
    Over p (pow base exponent) ↔ Over p base ∧ Over p exponent := by
  simp [over_iff, children]

@[simp] theorem over_function {f : Func} {arguments : List Expr} :
    Over p (function f arguments) ↔ ∀ a ∈ arguments, Over p a :=
  over_iff (by simp)

@[simp] theorem over_call {f : Func} {argument : Expr} : Over p (call f argument) ↔ Over p argument := by
  simp [call]

/-- The symbols of a node are those of its parts. -/
theorem over_hereditary : Canonical.Hereditary (fun _ => True) (Over p) (Over p) where
  constant := over_constant
  add _ := over_add
  mul _ := over_mul
  pow _ _ := over_pow
  function _ _ := by simp

theorem over_sum {ts : List Expr} (h : ∀ t ∈ ts, Over p t) : Over p (sum ts) :=
  over_hereditary.sum h

theorem over_product {fs : List Expr} (h : ∀ f ∈ fs, Over p f) : Over p (product fs) :=
  over_hereditary.product h

theorem over_withChildren {e : Expr} {cs : List Expr} (h : Over p e) (hcs : ∀ c ∈ cs, Over p c) :
    Over p (e.withChildren cs) := by
  cases e with
  | constant | symbol => exact h
  | add => exact over_add.mpr hcs
  | mul => exact over_mul.mpr hcs
  | function => exact over_function.mpr hcs
  | pow base exponent =>
    unfold withChildren
    split <;> simp_all

/-! ## Replacing symbols -/

variable {bindings : List (String × Expr)}

@[simp] theorem replaceSymbols_symbol (bindings : List (String × Expr)) (name : String) :
    (symbol name).replaceSymbols bindings = boundTo bindings name := by
  unfold replaceSymbols
  rw [recurse_eq]

/-- In a node that is no symbol the children are replaced. -/
theorem replaceSymbols_node {e : Expr} (h : ∀ other, e ≠ symbol other) :
    e.replaceSymbols bindings = e.withChildren (e.children.map (replaceSymbols bindings)) := by
  unfold replaceSymbols
  rw [recurse_eq]
  cases e with
  | symbol other => exact absurd rfl (h other)
  | _ => rfl

/-- The symbols after the replacement are those of the expressions bound to the symbols before. -/
theorem contains_replaceSymbols (e : Expr) (name : String) :
    (e.replaceSymbols bindings).contains name = true ↔
      ∃ other, e.contains other = true ∧ (boundTo bindings other).contains name = true := by
  induction e using Expr.induction with
  | node e ih =>
    by_cases hsymbol : ∃ other, e = symbol other
    · obtain ⟨other, rfl⟩ := hsymbol
      simp [contains_symbol]
    · rw [not_exists] at hsymbol
      have hnode : ∀ other, e.withChildren (e.children.map (replaceSymbols bindings)) ≠
          symbol other := by
        cases e <;> simp_all [withChildren, children]
      rw [replaceSymbols_node hsymbol, contains_iff hnode, children_withChildren (by simp)]
      simp only [List.mem_map, exists_exists_and_eq_and, contains_iff hsymbol]
      constructor
      · rintro ⟨c, hc, hname⟩
        obtain ⟨other, hother, hbound⟩ := (ih c hc).mp hname
        exact ⟨other, ⟨c, hc, hother⟩, hbound⟩
      · rintro ⟨other, ⟨c, hc, hother⟩, hbound⟩
        exact ⟨c, hc, (ih c hc).mpr ⟨other, hother, hbound⟩⟩

end Expr

open ClosedForm.Expr

variable {p : String → Prop} {bounds : Bounds}

namespace Canonical

theorem over_of_mem_children {e c : Expr} (h : Over p e) (hc : c ∈ e.children) : Over p c := by
  cases e with
  | symbol => cases hc
  | _ => exact (over_iff (by simp)).mp h c hc

/-- A hereditary property stays one with a condition on the symbols. -/
theorem Hereditary.over {H : Func → Prop} {R E : Expr → Prop} (h : Hereditary H R E)
    (hE : ∀ x, E x → Over p x) : Hereditary H (fun e => R e ∧ Over p e) E where
  constant c := ⟨h.constant c, over_constant c⟩
  add ts := by simp only [h.add, over_add, forall_and]
  mul fs := by simp only [h.mul, over_mul, forall_and]
  pow base exponent := by
    rw [h.pow, over_pow]
    exact ⟨fun h => ⟨⟨h.1.1, h.2.1⟩, h.1.2⟩, fun h => ⟨⟨h.1.1, h.2⟩, h.1.2, hE _ h.2⟩⟩
  function f arguments := by simp only [h.function, over_function, forall_and, and_assoc]

/-- A hereditary property of an expression and of what is bound to its symbols holds after the
replacement, which leaves the exponents as they are. -/
theorem Hereditary.replaceSymbols {H : Func → Prop} {R E : Expr → Prop} (h : Hereditary H R E)
    {bindings : List (String × Expr)} (hE : ∀ x, E x → x.replaceSymbols bindings = x) {e : Expr}
    (he : R e) (hbound : Over (fun name => R (boundTo bindings name)) e) :
    R (e.replaceSymbols bindings) := by
  induction e using Expr.induction with
  | node e ih =>
    have hlist : ∀ {es : List Expr}, (∀ c ∈ es, c ∈ e.children ∧ R c) →
        ∀ c ∈ es.map (Expr.replaceSymbols bindings), R c := by
      intro es hes c hc
      obtain ⟨d, hd, rfl⟩ := List.mem_map.mp hc
      obtain ⟨hchild, hd⟩ := hes d hd
      exact ih d hchild hd (over_of_mem_children hbound hchild)
    cases e with
    | constant c => exact h.constant c
    | symbol name =>
      rw [replaceSymbols_symbol]
      exact over_symbol.mp hbound
    | add ts =>
      rw [replaceSymbols_node (by simp)]
      exact (h.add _).mpr (hlist fun c hc => ⟨hc, (h.add _).mp he c hc⟩)
    | mul fs =>
      rw [replaceSymbols_node (by simp)]
      exact (h.mul _).mpr (hlist fun c hc => ⟨hc, (h.mul _).mp he c hc⟩)
    | pow base exponent =>
      obtain ⟨hbase, hexponent⟩ := (h.pow _ _).mp he
      rw [replaceSymbols_node (by simp)]
      refine (h.pow _ _).mpr ⟨?_, (hE exponent hexponent).symm ▸ hexponent⟩
      exact ih base (by simp [children]) hbase (over_pow.mp hbound).1
    | function f arguments =>
      obtain ⟨hf, harguments⟩ := (h.function _ _).mp he
      rw [replaceSymbols_node (by simp)]
      exact (h.function _ _).mpr ⟨hf, hlist fun c hc => ⟨hc, harguments c hc⟩⟩

/-- No rule brings symbols in, neither into an expression nor into an exponent. -/
theorem over_closed : Closed (fun _ => True) (Over p) (Over p) where
  toHereditary := over_hereditary
  one := over_one
  sum _ h := over_hereditary.add_rule h
  fraction _ q _ _ := over_constant q
  multiple hP _ _ _ _ hr he _ :=
    over_hereditary.multiplyWith over_one (fun _ => over_hereditary.add_rule) hP hr
      (by simpa using he)

theorem over_add_rule {ts : List Expr} (h : ∀ t ∈ ts, Over p t) : Over p (add ts) :=
  over_hereditary.add_rule h

theorem over_multiply {fs : List Expr} {r : Expr} (h : multiply bounds fs = .ok r)
    (hfs : ∀ f ∈ fs, Over p f) : Over p r :=
  over_closed.multiply h hfs

/-! ## Canonical forms -/

/-- A pass brings no symbols in, if the entries of the memo do not. -/
theorem over_pass {memo : Memo} (hmemo : ∀ e c, memo.find? e = some c → Over p e → Over p c)
    {e r : Expr} (h : pass bounds memo e = .ok r) (he : Over p e) : Over p r := by
  induction e using Expr.induction generalizing r with
  | node e ih =>
    rw [pass_eq] at h
    obtain ⟨cs, hcs, h⟩ := bind_eq_ok.mp h
    cases hfind : memo.find? e with
    | some canonical =>
      rw [passStep_of_find hfind] at h
      cases h
      exact hmemo e _ hfind he
    | none =>
      rw [passStep_of_not_find hfind] at h
      refine over_closed.simplifyNode h (over_withChildren he fun c hc => ?_)
      obtain ⟨child, hchild, hpass⟩ := exists_of_forall₂_right (mapM_eq_ok.mp hcs) hc
      exact ih child hchild hpass (over_of_mem_children he hchild)

end Canonical

open Canonical

/-- A canonical form has no symbols but those of the expression. -/
theorem Memo.Reachable.over_run {memo : Memo} (hmemo : memo.Reachable bounds) {e c : Expr}
    (h : ((canonicalize bounds e).run.run memo).1 = .ok c) (he : Over p e) : Over p c :=
  hmemo.related_run (R := fun e c => Over p e → Over p c) (fun _ h => h)
    (fun hab hbc ha => hbc (hab ha)) (fun _ _ hentries _ _ hpass => over_pass hentries hpass) h he

/-! ## Values -/

namespace Interpretation

variable {K : Type*} [Field K] [CharZero K] {M : Interpretation K} {σ τ : String → K}

theorem sumValue_congr {es ds : List Expr}
    (h : List.Forall₂ (fun e d => M.value τ d = M.value σ e) es ds) :
    M.sumValue τ ds = M.sumValue σ es := by
  induction h with
  | nil => rw [sumValue, sumValue]
  | cons hed _ ih => rw [sumValue, sumValue, hed, ih]

theorem productValue_congr {es ds : List Expr}
    (h : List.Forall₂ (fun e d => M.value τ d = M.value σ e) es ds) :
    M.productValue τ ds = M.productValue σ es := by
  induction h with
  | nil => rw [productValue, productValue]
  | cons hed _ ih => rw [productValue, productValue, hed, ih]

/-- The value of a node that is no symbol comes from the values of its children. -/
theorem value_withChildren {e : Expr} (hsymbol : ∀ name, e ≠ .symbol name) {ds : List Expr}
    (h : List.Forall₂ (fun c d => M.value τ d = M.value σ c) e.children ds) :
    M.value τ (e.withChildren ds) = M.value σ e := by
  cases e with
  | constant c => exact (value_constant c).trans (value_constant c).symm
  | symbol name => exact absurd rfl (hsymbol name)
  | add terms => exact (value_add ds).trans ((sumValue_congr h).trans (value_add terms).symm)
  | mul factors => exact (value_mul ds).trans ((productValue_congr h).trans (value_mul factors).symm)
  | pow base exponent =>
    cases h with
    | @cons _ b _ _ hb hrest =>
      cases hrest with
      | @cons _ x _ _ hx hrest =>
        cases hrest
        show M.value τ (.pow b x) = _
        rw [value, value, hb, hx]
  | function f arguments =>
    cases arguments with
    | nil =>
      cases h
      cases f <;> rfl
    | cons argument rest =>
      cases h with
      | @cons _ d _ _ hd hrest =>
        cases rest with
        | nil =>
          cases hrest
          show M.value τ (.function f [d]) = _
          rw [value_function, value_function, hd]
        | cons =>
          cases hrest
          cases f <;> rfl

/-- The value depends on the symbols that occur only. -/
theorem value_congr {e : Expr} (h : Over (fun name => σ name = τ name) e) :
    M.value τ e = M.value σ e := by
  induction e using Expr.induction with
  | node e ih =>
    by_cases hsymbol : ∃ name, e = .symbol name
    · obtain ⟨name, rfl⟩ := hsymbol
      rw [value, value, over_symbol.mp h]
    · rw [not_exists] at hsymbol
      have hchildren : List.Forall₂ (fun c d => M.value τ d = M.value σ c) e.children e.children :=
        List.forall₂_same.mpr fun c hc => ih c hc (over_of_mem_children h hc)
      simpa using value_withChildren hsymbol hchildren

/-- Replacing symbols by expressions is to give them the values of these. -/
theorem value_replaceSymbols {bindings : List (String × Expr)} {e : Expr}
    (h : Over (fun name => M.value τ (boundTo bindings name) = some (σ name)) e) :
    M.value τ (e.replaceSymbols bindings) = M.value σ e := by
  induction e using Expr.induction with
  | node e ih =>
    by_cases hsymbol : ∃ name, e = .symbol name
    · obtain ⟨name, rfl⟩ := hsymbol
      rw [replaceSymbols_symbol, over_symbol.mp h, value]
    · rw [not_exists] at hsymbol
      rw [replaceSymbols_node hsymbol]
      refine value_withChildren hsymbol (List.forall₂_map_right_iff.mpr ?_)
      exact List.forall₂_same.mpr fun c hc => ih c hc (over_of_mem_children h hc)

end Interpretation

end ClosedForm
