import ClosedForm.Proofs.Calculus.Evaluation
import ClosedForm.Proofs.Failures
import ClosedForm.Proofs.Reduction
import ClosedForm.Proofs.Substitution

/-!
# Exact arithmetic

`Functions.rational.eval` is the value of an expression in the rational numbers, where zero has no
reciprocal. An `Algebraic` expression with constant exponents has one unless it raises `0` to a
negative power somewhere (`Expr.Algebraic.exists_eval_iff`).

With constants put for the symbols, one pass of the rules folds such an expression into the constant
of its value, and divides by zero where it has none (`Canonical.folds_replaceSymbols`). So it does in
every reachable session, whatever the memo holds (`Session.substituteAll_exact`).
-/

namespace ClosedForm

open ClosedForm.Expr Canonical

/-- The rational numbers, without functions; zero has no reciprocal. -/
def Functions.rational : Functions ℚ where
  apply _ _ := none
  inverse b := if b = 0 then none else some b⁻¹

namespace Expr

/-- Made of constants and symbols by sums, products and powers whose exponents have the property. -/
inductive Algebraic (E : Expr → Prop) : Expr → Prop
  | constant (c : Rat) : Algebraic E (.constant c)
  | symbol (name : String) : Algebraic E (.symbol name)
  | add {ts : List Expr} (hts : ∀ t ∈ ts, Algebraic E t) : Algebraic E (.add ts)
  | mul {fs : List Expr} (hfs : ∀ f ∈ fs, Algebraic E f) : Algebraic E (.mul fs)
  | pow {base exponent : Expr} (hbase : Algebraic E base) (hexponent : E exponent) :
    Algebraic E (.pow base exponent)

/-- An integer constant of at most this magnitude. -/
def IntegerWithin (limit : Nat) (e : Expr) : Prop :=
  ∃ n : ℤ, n.natAbs ≤ limit ∧ e = .constant n

theorem algebraic_hereditary {E : Expr → Prop} : Hereditary (fun _ => False) (Algebraic E) E where
  constant := .constant
  add _ := ⟨fun h => by cases h; assumption, .add⟩
  mul _ := ⟨fun h => by cases h; assumption, .mul⟩
  pow _ _ := ⟨fun h => by cases h; exact ⟨‹_›, ‹_›⟩, fun h => .pow h.1 h.2⟩
  function _ _ := ⟨fun h => (nomatch h), fun h => h.1.elim⟩

theorem IntegerWithin.replaceSymbols {limit : Nat} {e : Expr} (h : e.IntegerWithin limit)
    (bindings : List (String × Expr)) : e.replaceSymbols bindings = e := by
  obtain ⟨n, -, rfl⟩ := h
  rw [replaceSymbols_node (by simp)]
  rfl

theorem Algebraic.hasArities {E : Expr → Prop} (hE : ∀ x, E x → x.HasArities) {e : Expr}
    (h : Algebraic E e) : e.HasArities := by
  induction h with
  | constant | symbol => exact .node (fun _ _ heq => by cases heq) (by simp [children])
  | add _ ih => exact .node (fun _ _ heq => by cases heq) ih
  | mul _ ih => exact .node (fun _ _ heq => by cases heq) ih
  | pow _ hexponent ih =>
    exact .node (fun _ _ heq => by cases heq) (by simpa [children] using ⟨ih, hE _ hexponent⟩)

/-! ## Where an expression has a value -/

theorem rational_power_eq_some {b c : ℚ} {n : ℤ} :
    Functions.rational.power b n = some c ↔ ¬(b = 0 ∧ n < 0) ∧ b ^ n = c := by
  cases n with
  | ofNat n => simp [Functions.power]
  | negSucc n =>
    by_cases hb : b = 0 <;>
      simp [Functions.power, Functions.rational, hb, Int.negSucc_lt_zero, zpow_negSucc]

/-- An expression with constant exponents has a value if nowhere in it a subexpression of value `0`
has a negative power. -/
theorem Algebraic.exists_eval_iff {limit : Nat} {e : Expr} (h : e.Algebraic (IntegerWithin limit))
    (σ : String → ℚ) : (∃ v, Functions.rational.eval σ e = some v) ↔
      ∀ (b : Expr) (n : ℤ), Subexpr (.pow b (.constant n)) e → n < 0 →
        Functions.rational.eval σ b ≠ some 0 := by
  constructor
  · rintro ⟨v, hv⟩ b n hsub hn hzero
    have hdefined : ∃ w, Functions.rational.eval σ (.pow b (.constant n)) = some w := by
      clear h
      generalize Expr.pow b (.constant n) = s at hsub
      induction hsub generalizing v with
      | refl => exact ⟨v, hv⟩
      | child _ hc ih =>
        obtain ⟨w, hw⟩ := Functions.eval_of_mem_children hv hc
        exact ih w hw
    obtain ⟨w, hw⟩ := hdefined
    obtain ⟨c, m, hc, hm, hpower⟩ := Functions.eval_pow_eq_some.mp hw
    cases hzero.symm.trans hc
    cases (integerExponent?_constant n).symm.trans hm
    exact (rational_power_eq_some.mp hpower).1 ⟨rfl, hn⟩
  · intro hsafe
    induction h with
    | constant c => exact ⟨c, rfl⟩
    | symbol name => exact ⟨σ name, rfl⟩
    | add hts ih =>
      obtain ⟨qs, hqs⟩ := exists_forall₂ fun t ht => ih t ht fun b n hsub => hsafe b n (.child hsub ht)
      exact ⟨_, Functions.eval_add_eq_some.mpr ⟨qs, hqs, rfl⟩⟩
    | mul hfs ih =>
      obtain ⟨qs, hqs⟩ := exists_forall₂ fun f hf => ih f hf fun b n hsub => hsafe b n (.child hsub hf)
      exact ⟨_, Functions.eval_mul_eq_some.mpr ⟨qs, hqs, rfl⟩⟩
    | pow _ hexponent ih =>
      obtain ⟨n, -, rfl⟩ := hexponent
      obtain ⟨q, hq⟩ := ih fun b m hsub => hsafe b m (.child hsub (by simp [children]))
      refine ⟨q ^ n, Functions.eval_pow_eq_some.mpr ⟨q, n, hq, integerExponent?_constant n, ?_⟩⟩
      refine rational_power_eq_some.mpr ⟨?_, rfl⟩
      rintro ⟨rfl, hn⟩
      exact hsafe _ n (.refl _) hn hq

end Expr

variable {bounds : Bounds}

namespace Canonical

/-! ## Folding constants -/

/-- The constant of a value; where there is none, `0` was divided by. -/
def folded (value : Option ℚ) : Except Error Expr :=
  value.elim (.error .divisionByZero) fun q => .ok (.constant q)

/-- One pass takes the expression to the constant of its value, and divides by zero if it has none. -/
structure Folds (bounds : Bounds) (e : Expr) (value : Option ℚ) : Prop where
  direct : Direct bounds e
  pass : pass bounds .empty e = folded value

namespace Folds

theorem constant (q : ℚ) : Folds bounds (.constant q) (some q) where
  direct := (Normal.constant q).direct
  pass := pass_empty_normal (.constant q)

/-- The children become constants where they all have values. -/
theorem children_pass {es : List Expr} {values : List (Option ℚ)}
    (h : List.Forall₂ (Folds bounds) es values) :
    es.mapM (Canonical.pass bounds .empty) =
      (values.mapM id).elim (.error .divisionByZero) fun qs => .ok (qs.map .constant) := by
  induction h with
  | nil => rfl
  | @cons e value es values he _ ih =>
    rw [List.mapM_cons, List.mapM_cons, he.pass, ih]
    cases value with
    | none => rfl
    | some q => cases values.mapM id <;> rfl

/-- A node folds where its rule makes of constants the constant of its value, or divides by zero if there
is none. -/
theorem node {e : Expr} {values : List (Option ℚ)} {value : Option ℚ}
    (h : List.Forall₂ (Folds bounds) e.children values)
    (hrule : ((values.mapM id).elim (.error .divisionByZero) fun qs =>
      simplifyNode bounds (e.withChildren (qs.map .constant))) = folded value) :
    Folds bounds e value := by
  have hpass : Canonical.pass bounds .empty e = folded value := by
    rw [pass_empty_eq, children_pass h, ← hrule]
    cases values.mapM id <;> rfl
  refine ⟨.of_children (fun c hc => ?_) fun r hr => ?_, hpass⟩
  · obtain ⟨i, hi, rfl⟩ := List.getElem_of_mem hc
    exact (h.get hi (h.length_eq ▸ hi)).direct
  · rw [hpass] at hr
    cases value with
    | none => cases hr
    | some q =>
      cases hr
      exact pass_empty_normal (.constant q)

theorem add {ts : List Expr} {values : List (Option ℚ)} (h : List.Forall₂ (Folds bounds) ts values) :
    Folds bounds (.add ts) ((values.mapM id).map List.sum) := by
  refine node h ?_
  cases values.mapM id with
  | none => rfl
  | some qs => exact congrArg Except.ok (add_all_constants qs)

theorem mul {fs : List Expr} {values : List (Option ℚ)} (h : List.Forall₂ (Folds bounds) fs values) :
    Folds bounds (.mul fs) ((values.mapM id).map List.prod) := by
  refine node h ?_
  cases values.mapM id with
  | none => rfl
  | some qs => exact multiply_all_constants qs

theorem pow (hbounds : bounds.InRange) {base : Expr} {value : Option ℚ} (h : Folds bounds base value)
    {n : ℤ} (hn : n.natAbs ≤ bounds.maxExactExponent) :
    Folds bounds (.pow base (.constant n)) (value.bind fun b => Functions.rational.power b n) := by
  refine node (.cons h (.cons (.constant n) .nil)) ?_
  cases value with
  | none => rfl
  | some q =>
    refine (power_constant_int hbounds q hn).trans ?_
    rw [Option.bind_some]
    split
    · next hzero =>
      have hnone : Functions.rational.power q n = none :=
        Option.eq_none_iff_forall_ne_some.mpr fun c hc => (rational_power_eq_some.mp hc).1 hzero
      rw [hnone]
      rfl
    · next hdefined =>
      rw [rational_power_eq_some.mpr ⟨hdefined, rfl⟩]
      rfl

end Folds

/-- With constants put for its symbols, an expression with constant exponents folds into the constant
of its value. -/
theorem folds_replaceSymbols (hbounds : bounds.InRange) {e : Expr}
    (h : e.Algebraic (IntegerWithin bounds.maxExactExponent)) {bindings : List (String × Expr)}
    {σ : String → ℚ} (hσ : Over (fun name => boundTo bindings name = .constant (σ name)) e) :
    Folds bounds (e.replaceSymbols bindings) (Functions.rational.eval σ e) := by
  have hlist {es : List Expr} (ih : ∀ c ∈ es, Folds bounds (c.replaceSymbols bindings)
      (Functions.rational.eval σ c)) :
      List.Forall₂ (Folds bounds) (es.map (replaceSymbols bindings))
        (es.map (Functions.rational.eval σ)) :=
    List.forall₂_map_left_iff.mpr (List.forall₂_map_right_iff.mpr (List.forall₂_same.mpr ih))
  induction h with
  | constant c => exact .constant c
  | symbol name =>
    rw [replaceSymbols_symbol, over_symbol.mp hσ]
    exact .constant (σ name)
  | add _ ih =>
    rw [replaceSymbols_node (by simp), Functions.eval_eq]
    exact .add (hlist fun t ht => ih t ht (over_add.mp hσ t ht))
  | mul _ ih =>
    rw [replaceSymbols_node (by simp), Functions.eval_eq]
    exact .mul (hlist fun f hf => ih f hf (over_mul.mp hσ f hf))
  | pow _ hexponent ih =>
    have hsame := hexponent.replaceSymbols bindings
    obtain ⟨n, hn, rfl⟩ := hexponent
    rw [replaceSymbols_node (by simp), Functions.eval_eq]
    show Folds bounds (.pow _ ((constant n).replaceSymbols bindings))
      ((Functions.rational.eval σ _).bind fun b =>
        (constant n).integerExponent?.bind (Functions.rational.power b))
    rw [hsame, integerExponent?_constant]
    exact .pow hbounds (ih (over_pow.mp hσ).1) hn

/-- The canonical form of an expression that folds, whatever the memo holds. -/
theorem Folds.canonicalize {e : Expr} {value : Option ℚ} (h : Folds bounds e value)
    (hpasses : 2 ≤ bounds.maxPasses) {memo : Memo} (hmemo : memo.Reachable bounds) :
    ((ClosedForm.canonicalize bounds e).run.run memo).1 = folded value := by
  rw [canonicalize_direct hpasses hmemo h.direct, h.pass]

end Canonical

namespace Session

/-- Putting rational constants for the symbols of an expression whose exponents are integers within
the limit evaluates it exactly. The answer is a handle of the constant that is its value, if nowhere
in it a subexpression of value `0` has a negative power, and otherwise that it divides by zero. -/
theorem substituteAll_exact (hbounds : bounds.InRange) (hpasses : 2 ≤ bounds.maxPasses)
    {session : Session} (hsession : session.Reachable bounds) {handle : Handle}
    (he : (session.pool.expr handle).Algebraic (IntegerWithin bounds.maxExactExponent))
    {bindings : List (String × Handle)} {σ : String → ℚ}
    (hσ : ∀ name, (session.pool.expr handle).contains name = true → ∃ replacement,
      bindings.lookup name = some replacement ∧ session.pool.expr replacement = .constant (σ name)) :
    ((∀ (b : Expr) (n : ℤ), Subexpr (.pow b (.constant n)) (session.pool.expr handle) → n < 0 →
        Functions.rational.eval σ b ≠ some 0) →
      ∃ v result later, Functions.rational.eval σ (session.pool.expr handle) = some v ∧
        session.answer (substituteAll handle bindings) = (.ok result, later) ∧
        Pool.StandsFor (.constant v) result later.pool) ∧
    ((∃ (b : Expr) (n : ℤ), Subexpr (.pow b (.constant n)) (session.pool.expr handle) ∧ n < 0 ∧
        Functions.rational.eval σ b = some 0) →
      (session.answer (substituteAll handle bindings)).1 = .error .divisionByZero) := by
  have hσ' : Over (fun name => boundTo (session.replacements bindings) name = .constant (σ name))
      (session.pool.expr handle) := by
    intro name hname
    obtain ⟨replacement, hlookup, hexpr⟩ := hσ name hname
    rw [boundTo_replacements, hlookup, Option.map_some, Option.getD_some, hexpr]
  have hrun := (folds_replaceSymbols hbounds he hσ').canonicalize hpasses hsession.consistent.memo
  have hperforms := substituteAll_canonicalizes hsession.consistent handle bindings
  have hdefined := he.exists_eval_iff σ
  constructor
  · intro hsafe
    obtain ⟨v, hv⟩ := hdefined.mpr hsafe
    rw [hv] at hrun
    obtain ⟨result, later, hanswer, -, -, hstands⟩ := hperforms.of_run (Prod.ext hrun rfl)
    exact ⟨v, result, later, hv, hanswer, hstands⟩
  · rintro ⟨b, n, hsub, hn, hzero⟩
    have hnone : Functions.rational.eval σ (session.pool.expr handle) = none := by
      rw [Option.eq_none_iff_forall_ne_some]
      exact fun v hv => hdefined.mp ⟨v, hv⟩ b n hsub hn hzero
    rw [hnone] at hrun
    exact hperforms.of_run_error hrun

/-- In a session that read `y + 0/(x - 1)`, putting `3` for `x` and `2` for `y` gives `2`. With `1` for
`x` it is a division by zero, even though the reciprocal is multiplied by `0`. Of two bindings for `x`
the first counts. -/
theorem substituteAll_exact_text :
    ∃ (session : Session) (handle one two three : Handle), session.Reachable {} ∧
      session.pool.expr handle = .add [.symbol "y", .mul [.constant 0,
        .pow (.add [.symbol "x", .mul [.constant (-1), .constant 1]]) (.constant (-1))]] ∧
      (∃ result later, session.answer (substituteAll handle [("x", three), ("y", two), ("x", one)]) =
        (.ok result, later) ∧ later.pool.expr result = .constant 2) ∧
      (session.answer (substituteAll handle [("x", one), ("y", two)])).1 = .error .divisionByZero := by
  have hread : List.Forall₂ (fun text e => Formula.read text = .ok e)
      ["y + 0/(x - 1)", "1", "2", "3"]
      [.add [.symbol "y", .mul [.constant 0,
        .pow (.add [.symbol "x", .mul [.constant (-1), .constant 1]]) (.constant (-1))]],
        .constant 1, .constant 2, .constant 3] :=
    .cons (by cbv) (.cons (by cbv) (.cons (by cbv) (.cons (by cbv) .nil)))
  obtain ⟨session, handles, hsession, -, - | @⟨_, handle, _, _, hhandle, - | @⟨_, one, _, _, hone,
    - | @⟨_, two, _, _, htwo, - | @⟨_, three, _, _, hthree, -⟩⟩⟩⟩⟩ := exists_parsed_all {} hread
  have hinverse : (constant (-1)).IntegerWithin ({} : Bounds).maxExactExponent :=
    ⟨-1, by decide, by norm_num⟩
  have he : (session.pool.expr handle).Algebraic (IntegerWithin ({} : Bounds).maxExactExponent) := by
    rw [hhandle.2]
    simp [algebraic_hereditary.add, algebraic_hereditary.mul, algebraic_hereditary.pow, hinverse,
      algebraic_hereditary.constant, Algebraic.symbol]
  have hbindings (bindings : List (String × Handle)) (x y : ℚ)
      (hx : ∃ replacement, bindings.lookup "x" = some replacement ∧
        session.pool.expr replacement = .constant x)
      (hy : ∃ replacement, bindings.lookup "y" = some replacement ∧
        session.pool.expr replacement = .constant y) :
      Over (fun name => ∃ replacement, bindings.lookup name = some replacement ∧
        session.pool.expr replacement = .constant (if name = "x" then x else y))
        (session.pool.expr handle) := by
    rw [hhandle.2]
    simp [over_symbol, hx, hy]
  refine ⟨session, handle, one, two, three, hsession, hhandle.2, ?_, ?_⟩
  · obtain ⟨hdefined, -⟩ := substituteAll_exact (by unfold Bounds.InRange; decide) (by decide)
      hsession he (hbindings [("x", three), ("y", two), ("x", one)] 3 2 ⟨three, rfl, hthree.2⟩
        ⟨two, rfl, htwo.2⟩)
    have hvalue : Functions.rational.eval (fun name => if name = "x" then 3 else 2)
        (session.pool.expr handle) = some 2 := by
      rw [hhandle.2]
      decide +kernel
    obtain ⟨v, result, later, hv, hanswer, hresult⟩ :=
      hdefined ((he.exists_eval_iff _).mp ⟨2, hvalue⟩)
    cases hvalue.symm.trans hv
    exact ⟨result, later, hanswer, hresult.2⟩
  · refine (substituteAll_exact (by unfold Bounds.InRange; decide) (by decide) hsession he
      (hbindings [("x", one), ("y", two)] 1 2 ⟨one, rfl, hone.2⟩ ⟨two, rfl, htwo.2⟩)).2 ?_
    refine ⟨.add [.symbol "x", .mul [.constant (-1), .constant 1]], -1, ?_, by decide, by decide +kernel⟩
    rw [hhandle.2]
    have hpower (b x : Expr) : Subexpr (.pow b x) (.mul [.constant 0, .pow b x]) :=
      .child (.refl _) (by simp [children])
    exact .child (hpower _ _) (by simp [children])

end Session

end ClosedForm
