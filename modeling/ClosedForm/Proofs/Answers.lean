import ClosedForm.Proofs.Stored.Operations

/-!
# What the requests of a session answer

Each request performs the computation on the expressions behind its handles
(`Session.Performs`): it answers with what stands for the result, or with the same error, records what
the computation records, and does nothing to the pool but grow it.
-/

namespace ClosedForm

namespace Session

variable {bounds : Bounds} {session : Session} (h : session.Consistent bounds)

include h

/-! ## Expressions and texts -/

theorem apply_performs (head : Func) {arguments : List Handle}
    (harguments : session.pool.Has arguments) :
    session.Performs bounds (apply head arguments)
      (if arguments.length = head.arity then
        return .function head (arguments.map session.pool.expr)
      else throw (.arity head arguments.length)) Pool.StandsFor := by
  unfold apply
  split
  · have hchildren : session.pool.Has (Node.function head arguments).children := harguments
    exact Performs.intern h hchildren
  · exact Performs.throw h _

theorem parse_performs (text : String) :
    session.Performs bounds (parse text) (liftM (Formula.read text)) Pool.StandsFor :=
  .storing h (Pool.parse_spec text session.pool h.pool)

theorem parseEquationRaw_performs (text : String) :
    session.Performs bounds (parseEquationRaw text) (liftM (Pool.readEquation text))
      Pool.StandsFor :=
  .storing h (Pool.parseEquation_spec text session.pool h.pool)

/-! ## Canonical forms -/

theorem canonicalize_performs (handle : Handle) :
    session.Performs bounds (canonicalize handle)
      (ClosedForm.canonicalize bounds (session.pool.expr handle)) Pool.StandsFor :=
  .transform h handle (Stored.runs_canonicalize bounds) Recording.canonicalize

theorem canonicalizeWithin_performs (handle : Handle) (maxPasses : Nat) :
    session.Performs bounds (canonicalizeWithin handle maxPasses)
      (ClosedForm.canonicalizeWithin bounds maxPasses (session.pool.expr handle)) Pool.StandsFor :=
  .transform h handle (Stored.runs_canonicalizeWithin bounds maxPasses)
    (Recording.canonicalizeWithin maxPasses)

theorem parseCanonical_performs (text : String) :
    session.Performs bounds (parseCanonical text)
      (do
        let e ← Formula.read text
        ClosedForm.canonicalize bounds e) Pool.StandsFor :=
  (parse_performs h text).bind fun raw _ _ hlater hraw =>
    hraw.2 ▸ canonicalize_performs hlater.consistent raw

theorem parseEquation_performs (text : String) :
    session.Performs bounds (parseEquation text)
      (do
        let e ← Pool.readEquation text
        ClosedForm.canonicalize bounds e) Pool.StandsFor :=
  (parseEquationRaw_performs h text).bind fun raw _ _ hlater hraw =>
    hraw.2 ▸ canonicalize_performs hlater.consistent raw

theorem expand_performs (handle : Handle) :
    session.Performs bounds (expand handle)
      (ClosedForm.expand bounds (session.pool.expr handle)) Pool.StandsFor :=
  .transform h handle (Stored.runs_expand bounds) Recording.expand

theorem substituteAll_performs (handle : Handle) (bindings : List (String × Handle)) :
    session.Performs bounds (substituteAll handle bindings)
      (ClosedForm.substituteAll bounds (session.pool.expr handle)
        ((bindings.map Prod.fst).zip ((bindings.map Prod.snd).map session.pool.expr)))
      Pool.StandsFor :=
  .exprs_bind (.transform h handle (fun e => Stored.runs_substituteAll bounds e _)
    (fun e => Recording.substituteAll e _))

/-! ## Rules -/

theorem simplifyAdd_performs (terms : List Handle) :
    session.Performs bounds (simplifyAdd terms)
      (return Canonical.add (terms.map session.pool.expr)) Pool.StandsFor :=
  .exprs_bind (.runs_store h (.storing (Stored.computes_add _)) (.lift _))

theorem simplifyMul_performs (factors : List Handle) :
    session.Performs bounds (simplifyMul factors)
      (liftM (Canonical.multiply bounds (factors.map session.pool.expr))) Pool.StandsFor :=
  .exprs_bind (.bounded_store h (.storing (Stored.computes_multiply bounds _)) (.lift _))

theorem simplifyPow_performs (base exponent : Handle) :
    session.Performs bounds (simplifyPow base exponent)
      (liftM (Canonical.power bounds (session.pool.expr base) (session.pool.expr exponent)))
      Pool.StandsFor :=
  .expr_bind (.expr_bind
    (.bounded_store h (.storing (Stored.computes_power bounds _ _)) (.lift _)))

/-! ## Calculus -/

theorem differentiate_performs (handle : Handle) (name : String) :
    session.Performs bounds (differentiate handle name)
      (ClosedForm.differentiate bounds (session.pool.expr handle) name) Pool.StandsFor :=
  .transform h handle (fun e => Stored.runs_differentiate bounds e name)
    (fun e => Recording.differentiate e name)

theorem differentiateN_performs (handle : Handle) (name : String) (n : Nat) :
    session.Performs bounds (differentiateN handle name n)
      (ClosedForm.differentiateN bounds (session.pool.expr handle) name n) Pool.StandsFor :=
  .transform h handle (fun e => Stored.runs_differentiateN bounds e name n)
    (fun e => Recording.differentiateN e name n)

theorem limit_performs (handle : Handle) (name : String) (point : Handle) :
    session.Performs bounds (limit handle name point)
      (ClosedForm.limit bounds (session.pool.expr handle) name (session.pool.expr point))
      Pool.StandsFor :=
  .expr_bind (.transform h handle (fun e => Stored.runs_limit bounds e name _)
    (fun e => Recording.limit e name _))

theorem taylor_performs (handle : Handle) (name : String) (point : Handle) (order : Nat) :
    session.Performs bounds (taylor handle name point order)
      (ClosedForm.taylor bounds (session.pool.expr handle) name (session.pool.expr point) order)
      Pool.StandsFor :=
  .expr_bind (.transform h handle (fun e => Stored.runs_taylor bounds e name _ order)
    (fun e => Recording.taylor e name _ order))

theorem maclaurin_performs (handle : Handle) (name : String) (order : Nat) :
    session.Performs bounds (maclaurin handle name order)
      (ClosedForm.maclaurin bounds (session.pool.expr handle) name order) Pool.StandsFor :=
  .expr_bind (.bounded_store h (Stored.runs_maclaurin bounds _ name order)
    (.maclaurin _ name order))

theorem evaluate_performs (handle : Handle) (bindings : List (String × Float)) :
    session.Performs bounds (evaluate handle bindings)
      (ClosedForm.evaluate bounds (session.pool.expr handle) bindings) fun b a _ => a = b :=
  .expr_bind (.bounded h (.of_runs h (Stored.runs_evaluate bounds _ bindings)
    (.evaluate _ bindings)))

/-! ## Polynomials -/

theorem polynomial_performs (handle : Handle) (name : String) :
    session.Performs bounds (polynomial handle name)
      (Polynomial.ofExpr bounds (session.pool.expr handle) name) fun b a _ => a = b :=
  .expr_bind (.bounded h (.of_runs h (Stored.runs_polynomial bounds _ name)
    (.polynomialOfExpr _ name)))

theorem ofPolynomial_performs (p : Polynomial) (name : String) :
    session.Performs bounds (ofPolynomial p name) (p.toExpr bounds name) Pool.StandsFor :=
  .bounded_store h (Stored.runs_ofPolynomial bounds p name) (.canonicalize _)

theorem addPolynomials_performs (p q : Polynomial) :
    session.Performs bounds (addPolynomials p q) (return p.add q) fun b a _ => a = b :=
  .of_runs h (.storing (Stored.computes_addPolynomials p q)) (.lift _)

theorem multiplyPolynomials_performs (p q : Polynomial) :
    session.Performs bounds (multiplyPolynomials p q) (liftM (p.mul bounds q)) fun b a _ => a = b :=
  .bounded h (.of_runs h (.storing (Stored.computes_multiplyPolynomials bounds p q)) (.lift _))

theorem powPolynomial_performs (p : Polynomial) (n : Nat) :
    session.Performs bounds (powPolynomial p n) (liftM (p.pow bounds n)) fun b a _ => a = b :=
  .bounded h (.of_runs h (.storing (Stored.computes_powPolynomial bounds p n)) (.lift _))

/-! ## Solving -/

theorem solve_performs (handle : Handle) (name : String) :
    session.Performs bounds (solve handle name)
      (ClosedForm.solve bounds (session.pool.expr handle) name) fun b a _ => a = b :=
  .expr_bind (.bounded h (.of_runs h (Stored.runs_solveUpTo bounds 2 _ name) (.solveUpTo 2 _ name)))

theorem solveLinear_performs (handle : Handle) (name : String) :
    session.Performs bounds (solveLinear handle name)
      (ClosedForm.solveLinear bounds (session.pool.expr handle) name) fun b a _ => a = b :=
  .expr_bind (.bounded h (.of_runs h (Stored.runs_solveUpTo bounds 1 _ name) (.solveUpTo 1 _ name)))

theorem solveSystem_performs (equations : List Handle) (unknowns : List String) :
    session.Performs bounds (solveSystem equations unknowns)
      (ClosedForm.solveSystem bounds (equations.map session.pool.expr) unknowns)
      fun b a _ => a = b :=
  .exprs_bind (.bounded h (.of_runs h (Stored.runs_solveSystem bounds _ unknowns)
    (.solveSystem _ unknowns)))

theorem general_performs (family : SolutionFamily) :
    session.Performs bounds (general family) (family.general bounds) fun b a _ => a = b :=
  .bounded h (.of_runs h (Stored.runs_general bounds family) (.general family))

end Session

end ClosedForm
