import ClosedForm.Proofs.Answers

/-!
# Reachable sessions

`Operation` lists everything that can be asked of a session, and `Session.Reachable` the
sessions that some sequence of operations leads to from a new one, failed operations included.
An operation may only name handles of the pool.

A reachable session is consistent (`Session.Reachable.consistent`): its pool is well-formed and
its memo is one that canonicalizations can fill. An operation does nothing to the pool but store nodes
over handles that it has by then (`Session.Consistent.after`). `Session.canonicalize_spec` says what the
canonical form of a handle is in a consistent session.
-/

namespace ClosedForm

/-- A request of any kind, with what it asks about. -/
inductive Operation
  | intern (node : Node)
  | apply (head : Func) (arguments : List Handle)
  | parse (text : String)
  | parseEquationRaw (text : String)
  | canonicalize (handle : Handle)
  | canonicalizeWithin (handle : Handle) (maxPasses : Nat)
  | parseCanonical (text : String)
  | parseEquation (text : String)
  | expand (handle : Handle)
  | substituteAll (handle : Handle) (bindings : List (String × Handle))
  | simplifyAdd (terms : List Handle)
  | simplifyMul (factors : List Handle)
  | simplifyPow (base exponent : Handle)
  | differentiate (handle : Handle) (name : String)
  | differentiateN (handle : Handle) (name : String) (n : Nat)
  | limit (handle : Handle) (name : String) (point : Handle)
  | taylor (handle : Handle) (name : String) (point : Handle) (order : Nat)
  | maclaurin (handle : Handle) (name : String) (order : Nat)
  | evaluate (handle : Handle) (bindings : List (String × Float))
  | polynomial (handle : Handle) (name : String)
  | ofPolynomial (p : Polynomial) (name : String)
  | addPolynomials (p q : Polynomial)
  | multiplyPolynomials (p q : Polynomial)
  | powPolynomial (p : Polynomial) (n : Nat)
  | solve (handle : Handle) (name : String)
  | solveLinear (handle : Handle) (name : String)
  | solveSystem (equations : List Handle) (unknowns : List String)
  | general (family : SolutionFamily)

namespace Operation

/-- The handles that an operation names. -/
def handles : Operation → List Handle
  | intern node => node.children
  | apply _ arguments => arguments
  | canonicalize handle | canonicalizeWithin handle _ | expand handle | differentiate handle _
  | differentiateN handle _ _ | maclaurin handle _ _ | evaluate handle _ | polynomial handle _
  | solve handle _ | solveLinear handle _ => [handle]
  | substituteAll handle bindings => handle :: bindings.map Prod.snd
  | simplifyAdd terms => terms
  | simplifyMul factors => factors
  | simplifyPow base exponent => [base, exponent]
  | limit handle _ point | taylor handle _ point _ => [handle, point]
  | solveSystem equations _ => equations
  | parse _ | parseEquationRaw _ | parseCanonical _ | parseEquation _ | ofPolynomial _ _
  | addPolynomials _ _ | multiplyPolynomials _ _ | powPolynomial _ _ | general _ => []

end Operation

namespace Session

/-- The session after an operation, whether it succeeded or failed. -/
def after (session : Session) : Operation → Session
  | .intern node => (session.answer (storing (Pool.intern node))).2
  | .apply head arguments => (session.answer (apply head arguments)).2
  | .parse text => (session.answer (parse text)).2
  | .parseEquationRaw text => (session.answer (parseEquationRaw text)).2
  | .canonicalize handle => (session.answer (canonicalize handle)).2
  | .canonicalizeWithin handle maxPasses => (session.answer (canonicalizeWithin handle maxPasses)).2
  | .parseCanonical text => (session.answer (parseCanonical text)).2
  | .parseEquation text => (session.answer (parseEquation text)).2
  | .expand handle => (session.answer (expand handle)).2
  | .substituteAll handle bindings => (session.answer (substituteAll handle bindings)).2
  | .simplifyAdd terms => (session.answer (simplifyAdd terms)).2
  | .simplifyMul factors => (session.answer (simplifyMul factors)).2
  | .simplifyPow base exponent => (session.answer (simplifyPow base exponent)).2
  | .differentiate handle name => (session.answer (differentiate handle name)).2
  | .differentiateN handle name n => (session.answer (differentiateN handle name n)).2
  | .limit handle name point => (session.answer (limit handle name point)).2
  | .taylor handle name point order => (session.answer (taylor handle name point order)).2
  | .maclaurin handle name order => (session.answer (maclaurin handle name order)).2
  | .evaluate handle bindings => (session.answer (evaluate handle bindings)).2
  | .polynomial handle name => (session.answer (polynomial handle name)).2
  | .ofPolynomial p name => (session.answer (ofPolynomial p name)).2
  | .addPolynomials p q => (session.answer (addPolynomials p q)).2
  | .multiplyPolynomials p q => (session.answer (multiplyPolynomials p q)).2
  | .powPolynomial p n => (session.answer (powPolynomial p n)).2
  | .solve handle name => (session.answer (solve handle name)).2
  | .solveLinear handle name => (session.answer (solveLinear handle name)).2
  | .solveSystem equations unknowns => (session.answer (solveSystem equations unknowns)).2
  | .general family => (session.answer (general family)).2

/-- Some operations, one after another, lead from a new session to this one. -/
inductive Reachable (bounds : Bounds) : Session → Prop
  | new : Reachable bounds (new bounds)
  | after {session : Session} (operation : Operation) : Reachable bounds session →
      session.pool.Has operation.handles → Reachable bounds (session.after operation)

variable {bounds : Bounds}

theorem new_consistent (bounds : Bounds) : (new bounds).Consistent bounds :=
  ⟨rfl, Pool.initial_wellFormed, .empty⟩

/-- An operation on handles of the pool keeps a session consistent, and stores nodes over handles that
the pool has by then, also if it fails. -/
theorem Consistent.after {session : Session} (h : session.Consistent bounds)
    (operation : Operation) (hhandles : session.pool.Has operation.handles) :
    session.Follows bounds (session.after operation) := by
  cases operation with
  | intern node => exact (Performs.intern h hhandles).follows
  | apply head arguments => exact (apply_performs h head hhandles).follows
  | parse text => exact (parse_performs h text).follows
  | parseEquationRaw text => exact (parseEquationRaw_performs h text).follows
  | canonicalize handle => exact (canonicalize_performs h handle).follows
  | canonicalizeWithin handle maxPasses =>
    exact (canonicalizeWithin_performs h handle maxPasses).follows
  | parseCanonical text => exact (parseCanonical_performs h text).follows
  | parseEquation text => exact (parseEquation_performs h text).follows
  | expand handle => exact (expand_performs h handle).follows
  | substituteAll handle bindings => exact (substituteAll_performs h handle bindings).follows
  | simplifyAdd terms => exact (simplifyAdd_performs h terms).follows
  | simplifyMul factors => exact (simplifyMul_performs h factors).follows
  | simplifyPow base exponent => exact (simplifyPow_performs h base exponent).follows
  | differentiate handle name => exact (differentiate_performs h handle name).follows
  | differentiateN handle name n => exact (differentiateN_performs h handle name n).follows
  | limit handle name point => exact (limit_performs h handle name point).follows
  | taylor handle name point order => exact (taylor_performs h handle name point order).follows
  | maclaurin handle name order => exact (maclaurin_performs h handle name order).follows
  | evaluate handle bindings => exact (evaluate_performs h handle bindings).follows
  | polynomial handle name => exact (polynomial_performs h handle name).follows
  | ofPolynomial p name => exact (ofPolynomial_performs h p name).follows
  | addPolynomials p q => exact (addPolynomials_performs h p q).follows
  | multiplyPolynomials p q => exact (multiplyPolynomials_performs h p q).follows
  | powPolynomial p n => exact (powPolynomial_performs h p n).follows
  | solve handle name => exact (solve_performs h handle name).follows
  | solveLinear handle name => exact (solveLinear_performs h handle name).follows
  | solveSystem equations unknowns => exact (solveSystem_performs h equations unknowns).follows
  | general family => exact (general_performs h family).follows

/-- Reachable sessions are consistent. -/
theorem Reachable.consistent {session : Session} (h : session.Reachable bounds) :
    session.Consistent bounds := by
  induction h with
  | new => exact new_consistent bounds
  | after operation _ hhandles ih => exact (ih.after operation hhandles).consistent

/-! ## Canonical forms in a session -/

/-- Canonicalizing the expression behind a handle of a consistent session ends as it does on the
expression with the memo: with a handle of the canonical form, or with the same error. -/
theorem canonicalize_spec {session : Session} (h : session.Consistent bounds) (handle : Handle) :
    match ((ClosedForm.canonicalize bounds (session.pool.expr handle)).run.run session.memo).1 with
    | .ok canonical => ∃ result, (session.answer (canonicalize handle)).1 = .ok result ∧
        Pool.StandsFor canonical result (session.answer (canonicalize handle)).2.pool
    | .error x => (session.answer (canonicalize handle)).1 = .error x := by
  have hperforms := canonicalize_performs h handle
  cases hrun : ((ClosedForm.canonicalize bounds (session.pool.expr handle)).run.run session.memo).1 with
  | error x => exact hperforms.of_run_error hrun
  | ok canonical =>
    obtain ⟨result, later, hanswer, -, hstands⟩ := hperforms.of_ok hrun
    rw [hanswer]
    exact ⟨result, rfl, hstands⟩

/-- A canonicalization that ends well gives a handle of the canonical form. -/
theorem canonicalize_ok {session : Session} (h : session.Consistent bounds) {handle : Handle}
    {c : Expr} (hrun : ((ClosedForm.canonicalize bounds (session.pool.expr handle)).run.run
      session.memo).1 = .ok c) :
    ∃ result later, session.answer (canonicalize handle) = (.ok result, later) ∧
      Pool.StandsFor c result later.pool := by
  obtain ⟨result, later, hanswer, -, hstands⟩ := (canonicalize_performs h handle).of_ok hrun
  exact ⟨result, later, hanswer, hstands⟩

/-- A handle of the canonical form is the one that a canonicalization gives. -/
theorem canonicalize_eq {session : Session} (h : session.Consistent bounds) {handle other : Handle}
    {c : Expr} (hother : Pool.StandsFor c other session.pool)
    (hrun : ((ClosedForm.canonicalize bounds (session.pool.expr handle)).run.run
      session.memo).1 = .ok c) :
    (session.answer (canonicalize handle)).1 = .ok other :=
  (canonicalize_performs h handle).answer_eq h hother hrun

/-- Storing an expression always succeeds, and leaves the memo as it is. -/
theorem store_spec {session : Session} (h : session.Consistent bounds) (e : Expr) :
    ∃ copy later, session.answer (store e) = (.ok copy, later) ∧ later.Consistent bounds ∧
      later.memo = session.memo ∧ Pool.StandsFor e copy later.pool := by
  obtain ⟨copy, later, hanswer, hfollows, hmemo, hcopy⟩ := (Performs.store h e).of_run rfl
  exact ⟨copy, later, hanswer, hfollows.consistent, hmemo, hcopy⟩

/-- Reading a text that states an expression gives a handle of the expression. -/
theorem parse_spec {session : Session} (h : session.Consistent bounds) {text : String} {e : Expr}
    (hread : Formula.read text = .ok e) :
    ∃ handle, (session.answer (parse text)).1 = .ok handle ∧
      Pool.StandsFor e handle (session.after (.parse text)).pool := by
  have hspec := Pool.parse_spec text session.pool h.pool
  rw [hread] at hspec
  exact hspec.2.2

/-- Reading a text leaves the memo as it is. -/
theorem memo_after_parse (session : Session) (text : String) :
    (session.after (.parse text)).memo = session.memo := rfl

/-- Reading a text in canonical form is reading it and canonicalizing what it states. -/
theorem answer_parseCanonical {session : Session} (h : session.Consistent bounds) {text : String}
    {e : Expr} (hread : Formula.read text = .ok e) :
    ∃ (raw : Handle) (stored : Session),
      session.answer (parseCanonical text) = stored.answer (canonicalize raw) ∧
      session.Follows bounds stored ∧ stored.memo = session.memo ∧
      Pool.StandsFor e raw stored.pool := by
  obtain ⟨raw, hraw, hstands⟩ := parse_spec h hread
  refine ⟨raw, session.after (.parse text), ?_, (parse_performs h text).follows,
    memo_after_parse session text, hstands⟩
  have hparse : session.answer (parse text) = (.ok raw, session.after (.parse text)) :=
    Prod.ext hraw rfl
  unfold parseCanonical
  rw [answer_bind, hparse]

/-- Reading a text in canonical form records what canonicalizing its expression does. -/
theorem memo_after_parseCanonical {session : Session} (h : session.Consistent bounds)
    {text : String} {e : Expr} (hread : Formula.read text = .ok e) :
    (session.after (.parseCanonical text)).memo =
      ((ClosedForm.canonicalize bounds e).run.run session.memo).2 := by
  obtain ⟨raw, stored, hanswer, hstored, hmemo, hraw⟩ := answer_parseCanonical h hread
  show (session.answer (parseCanonical text)).2.memo = _
  rw [hanswer, (canonicalize_performs hstored.consistent raw).memo_eq, hraw.2, hmemo]

/-- Reading more texts gives handles of the expressions that they state, and leaves the memo. -/
theorem Reachable.exists_parsed {session : Session} (h : session.Reachable bounds)
    {texts : List String} {es : List Expr}
    (hread : List.Forall₂ (fun text e => Formula.read text = .ok e) texts es) :
    ∃ (later : Session) (handles : List Handle), later.Reachable bounds ∧
      later.memo = session.memo ∧ session.pool.Extends later.pool ∧
      List.Forall₂ (fun e handle => Pool.StandsFor e handle later.pool) es handles := by
  induction hread generalizing session with
  | nil => exact ⟨session, [], h, rfl, .refl _, .nil⟩
  | @cons text e texts es htext _ ih =>
    obtain ⟨handle, -, hstands⟩ := parse_spec h.consistent htext
    have hafter : (session.after (.parse text)).Reachable bounds :=
      .after _ h (by simp [Operation.handles, Pool.Has])
    have hfollows := (parse_performs h.consistent text).follows
    obtain ⟨later, handles, hlater, hmemo, hextends, hall⟩ := ih hafter
    refine ⟨later, handle :: handles, hlater, hmemo, hfollows.pool.trans hextends, .cons ?_ hall⟩
    exact hstands.mono hafter.consistent.pool hlater.consistent.pool hextends

/-- A new session that reads texts has the expressions that they state, and remembers nothing. -/
theorem exists_parsed_all (bounds : Bounds) {texts : List String} {es : List Expr}
    (hread : List.Forall₂ (fun text e => Formula.read text = .ok e) texts es) :
    ∃ (session : Session) (handles : List Handle), session.Reachable bounds ∧
      session.memo = .empty ∧
      List.Forall₂ (fun e handle => Pool.StandsFor e handle session.pool) es handles := by
  have hnew : (new bounds).Reachable bounds := .new
  obtain ⟨session, handles, hreachable, hmemo, -, hstands⟩ := hnew.exists_parsed hread
  exact ⟨session, handles, hreachable, hmemo, hstands⟩

theorem exists_parsed (bounds : Bounds) {text : String} {e : Expr} (hread : Formula.read text = .ok e) :
    ∃ (session : Session) (handle : Handle), session.Reachable bounds ∧
      session.pool.expr handle = e ∧ session.memo = .empty := by
  obtain ⟨session, handles, hreachable, hmemo, - | ⟨hstands, -⟩⟩ :=
    exists_parsed_all bounds (.cons hread .nil)
  exact ⟨session, _, hreachable, hstands.2, hmemo⟩

/-- A new session that reads a text and canonicalizes it goes through the expression that the text
states to its canonical form. -/
theorem exists_canonicalize_text {text : String} {e c : Expr} (hread : Formula.read text = .ok e)
    (hrun : ((ClosedForm.canonicalize bounds e).run.run .empty).1 = .ok c) :
    ∃ (session later : Session) (handle result : Handle), session.Reachable bounds ∧
      session.pool.expr handle = e ∧ session.answer (canonicalize handle) = (.ok result, later) ∧
      later.pool.expr result = c := by
  obtain ⟨session, handle, hreachable, hexpr, hmemo⟩ := exists_parsed bounds hread
  rw [← hexpr, ← hmemo] at hrun
  obtain ⟨result, later, hanswer, hresult⟩ := canonicalize_ok hreachable.consistent hrun
  exact ⟨session, later, handle, result, hreachable, hexpr, hanswer, hresult.2⟩

end Session

end ClosedForm
