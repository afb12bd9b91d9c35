import ClosedForm.Proofs.Requests

/-!
# What the operations store

Each operation that stores the nodes it makes runs the operation on expressions of that name
(`Session.Runs`): it answers the same with the same memo, and the pool grows.
-/

namespace ClosedForm.Stored

open Session (Runs)

variable (bounds : Bounds)

/-! ## Canonical forms -/

/-- A canonicalization answers from the memo, or it settles, storing nodes, and records what it went
through. -/
theorem answer_canonicalizeWithin (session : Session) (maxPasses : Nat) (e : Expr) :
    session.answer (canonicalizeWithin bounds maxPasses e) =
      match session.memo.find? e with
      | some canonical => (.ok canonical, session)
      | none =>
        match (settle bounds session.memo maxPasses maxPasses [e] e).run.run session.pool with
        | (.ok (canonical, seen), pool) =>
          (.ok canonical, { session with pool := pool, memo := session.memo.record seen canonical })
        | (.error x, pool) => (.error x, { session with pool := pool }) := by
  unfold canonicalizeWithin
  rw [Session.answer_bind]
  show session.answer (match session.memo.find? e with | some _ => _ | none => _) = _
  cases session.memo.find? e with
  | some canonical => rfl
  | none =>
    have hanswer (action : Storing (Expr × List Expr)) : session.answer (Session.storing action) =
        ((action.run.run session.pool).1,
          { session with pool := (action.run.run session.pool).2 }) := rfl
    dsimp only
    rw [Session.answer_bind, hanswer]
    generalize (settle bounds session.memo maxPasses maxPasses [e] e).run.run session.pool = ran
    obtain ⟨x | reached, pool⟩ := ran <;> rfl

theorem runs_canonicalizeWithin (maxPasses : Nat) (e : Expr) :
    Runs (canonicalizeWithin bounds maxPasses e)
      (ClosedForm.canonicalizeWithin bounds maxPasses e) := by
  intro session hpool
  rw [run_canonicalizeWithin, answer_canonicalizeWithin]
  cases session.memo.find? e with
  | some canonical => exact ⟨session.pool, .refl, rfl⟩
  | none =>
    obtain ⟨pool, hgrows, hrun⟩ :=
      computes_settle bounds session.memo maxPasses maxPasses [e] e session.pool hpool
    refine ⟨pool, hgrows, ?_⟩
    rw [hrun]
    cases Canonical.settle bounds session.memo maxPasses maxPasses [e] e with
    | ok reached => rfl
    | error x => rfl

theorem runs_canonicalize (e : Expr) :
    Runs (canonicalize bounds e) (ClosedForm.canonicalize bounds e) :=
  runs_canonicalizeWithin bounds bounds.maxPasses e

theorem runs_canonicalizeNew (e : Expr) :
    Runs (canonicalizeNew bounds e) (ClosedForm.canonicalize bounds e) :=
  .storing_bind (computes_make e) (runs_canonicalize bounds e)

/-! ## Expansion and substitution -/

theorem computes_distributeOver (products : List Expr) (factor : Expr) :
    Computes (distributeOver bounds products factor)
      (Expand.distributeOver bounds products factor) := by
  refine (computes_flatMapM (fun p => ?_) products).bind fun next =>
    (computes_add next).bind_ok (computes_pure _)
  exact computes_mapM (fun t => computes_multiply bounds [p, t]) factor.terms

theorem computes_distribute (factors : List Expr) :
    Computes (distribute bounds factors) (Expand.distribute bounds factors) :=
  (computes_foldlM (computes_distributeOver bounds) factors [.one]).bind computes_add

theorem computes_multiplyOut (base : Expr) (n : Nat) (product : Expr) :
    Computes (multiplyOut bounds base n product) (Expand.multiplyOut bounds base n product) := by
  induction n generalizing product with
  | zero => exact computes_pure product
  | succ n ih => exact (computes_distribute bounds [product, base]).bind ih

theorem computes_expandPower (base exponent : Expr) :
    Computes (expandPower bounds base exponent) (Expand.expandPower bounds base exponent) := by
  unfold expandPower Expand.expandPower
  cases exponent.constant? with
  | none => exact computes_power bounds base exponent
  | some n =>
    refine computes_ite ?_ (computes_power bounds base exponent)
    refine (computes_multiplyOut bounds base _ base).bind fun expanded => ?_
    exact computes_ite ((computes_make _).bind_ok (computes_power bounds expanded _))
      (computes_pure expanded)

theorem computes_expandNode (e : Expr) :
    Computes (expandNode bounds e) (Expand.expandNode bounds e) := by
  cases e with
  | add terms => exact computes_add terms
  | mul factors => exact computes_distribute bounds factors
  | pow base exponent => exact computes_expandPower bounds base exponent
  | _ => exact computes_make _

theorem computes_expandNodes (e : Expr) :
    Computes (expandNodes bounds e) (Expand.expandNodes bounds e) :=
  computes_foldM (fun _ _ => computes_expandNode bounds _) e

theorem runs_expand (e : Expr) : Runs (expand bounds e) (ClosedForm.expand bounds e) :=
  (runs_canonicalize bounds e).bind fun canonical =>
    (Runs.storing (computes_expandNodes bounds canonical)).bind (runs_canonicalize bounds)

theorem runs_substituteAll (e : Expr) (bindings : List (String × Expr)) :
    Runs (substituteAll bounds e bindings) (ClosedForm.substituteAll bounds e bindings) :=
  runs_canonicalizeNew bounds _

theorem runs_substitute (e : Expr) (name : String) (replacement : Expr) :
    Runs (substitute bounds e name replacement) (ClosedForm.substitute bounds e name replacement) :=
  runs_substituteAll bounds e _

/-! ## Calculus -/

theorem computes_derivative (name : String) (e : Expr) :
    Computes (derivative name e) (Derivative.ofCanonical name e) := by
  refine computes_foldM (fun node derivatives => ?_) e
  have hstep := (computes_lift (Derivative.step name node derivatives)).bind computes_make
  rwa [show (Derivative.step name node derivatives >>= Except.ok) =
    Derivative.step name node derivatives from bind_pure _] at hstep

theorem runs_differentiate (e : Expr) (name : String) :
    Runs (differentiate bounds e name) (ClosedForm.differentiate bounds e name) :=
  (runs_canonicalize bounds e).bind fun canonical =>
    (Runs.storing (computes_derivative name canonical)).bind (runs_canonicalize bounds)

theorem runs_differentiateTimes (name : String) (n : Nat) (e : Expr) :
    Runs (differentiateTimes bounds name n e) (ClosedForm.differentiateTimes bounds name n e) := by
  induction n generalizing e with
  | zero => exact .pure e
  | succ n ih => exact .ite (.pure e) ((runs_differentiate bounds e name).bind ih)

theorem runs_differentiateN (e : Expr) (name : String) (n : Nat) :
    Runs (differentiateN bounds e name n) (ClosedForm.differentiateN bounds e name n) :=
  (runs_canonicalize bounds e).bind (runs_differentiateTimes bounds name n)

theorem runs_limit (e : Expr) (name : String) (point : Expr) :
    Runs (limit bounds e name point) (ClosedForm.limit bounds e name point) := by
  refine (runs_canonicalize bounds e).bind fun canonical => ?_
  refine ((runs_substitute bounds canonical name point).tryCatch fun x => ?_).bind fun value =>
    .ite (.throw _) (.pure value)
  cases x <;> exact .throw _

theorem runs_taylorTerms (name : String) (point shift : Expr) (k count : Nat) (derivative : Expr) :
    Runs (taylorTerms bounds name point shift k count derivative)
      (Taylor.terms bounds name point shift k count derivative) := by
  induction count generalizing k derivative with
  | zero => exact .pure []
  | succ count ih =>
    refine (runs_substitute bounds derivative name point).bind fun value => ?_
    refine .storing_bind (computes_making _ _) (.ite ?_ ?_)
    · exact (Runs.pure derivative).bind fun next => (ih (k + 1) next).bind fun rest => .pure _
    · exact (runs_differentiate bounds derivative name).bind fun next =>
        (ih (k + 1) next).bind fun rest => .pure _

theorem runs_taylor (e : Expr) (name : String) (point : Expr) (order : Nat) :
    Runs (taylor bounds e name point order) (ClosedForm.taylor bounds e name point order) := by
  refine .storing_bind (computes_make _) ((runs_canonicalize bounds e).bind fun canonical => ?_)
  exact (runs_taylorTerms bounds name point _ 0 order canonical).bind fun terms =>
    runs_canonicalizeNew bounds _

theorem runs_maclaurin (e : Expr) (name : String) (order : Nat) :
    Runs (maclaurin bounds e name order) (ClosedForm.maclaurin bounds e name order) :=
  runs_taylor bounds e name .zero order

theorem runs_evaluate (e : Expr) (bindings : List (String × Float)) :
    Runs (evaluate bounds e bindings) (ClosedForm.evaluate bounds e bindings) :=
  (runs_canonicalize bounds e).bind fun canonical =>
    (Runs.lift (Evaluate.ofCanonical bindings canonical)).bind fun value =>
      .ite (.pure value) (.throw _)

/-! ## Polynomials -/

/-- Adding at a power makes a sum of coefficients where there is one already. -/
theorem computes_addAt (power : Nat) (c : Expr) (sum : List (Nat × Expr)) :
    Computes (addAt power c sum) (.ok (Polynomial.addAt power c sum)) := by
  unfold addAt
  cases sum.lookup power with
  | some d => exact (computes_add [d, c]).bind_ok (computes_pure _)
  | none => exact computes_pure _

theorem computes_addPolynomials (p q : Polynomial) :
    Computes (addPolynomials p q) (.ok (p.add q)) := by
  have hsum := computes_foldlM (fun (sum : List (Nat × Expr)) (t : Nat × Expr) =>
    computes_addAt t.1 t.2 sum) q.coefficients p.coefficients
  rw [show q.coefficients.foldlM (fun sum t => Except.ok (ε := Error) (Polynomial.addAt t.1 t.2 sum))
      p.coefficients = .ok (p.add q).coefficients from List.foldlM_pure ..] at hsum
  exact hsum.bind_ok (computes_pure (p.add q))

theorem computes_addScaled (power : Nat) (c : Expr) (p : Polynomial) (sum : List (Nat × Expr)) :
    Computes (addScaled bounds power c p sum) (Polynomial.addScaled bounds power c p sum) := by
  refine computes_foldlM (fun sum t => ?_) p.coefficients sum
  exact (computes_multiply bounds [c, t.2]).bind fun product =>
    (computes_lift (Polynomial.addPowers power t.1)).bind fun power => computes_addAt power product sum

theorem computes_multiplyPolynomials (p q : Polynomial) :
    Computes (multiplyPolynomials bounds p q) (p.mul bounds q) := by
  refine (computes_foldlM (fun sum t => ?_) p.coefficients []).bind fun sum => computes_pure _
  exact computes_addScaled bounds t.1 t.2 q sum

theorem computes_powLoop (fuel n : Nat) (base result : Polynomial) :
    Computes (powLoop bounds fuel n base result) (Polynomial.powLoop bounds fuel n base result) := by
  induction fuel generalizing n base result with
  | zero => exact computes_pure result
  | succ fuel ih =>
    have hnext (result : Polynomial) : Computes
        (do
          if n / 2 = 0 then return result
          let squared ← multiplyPolynomials bounds base base
          powLoop bounds fuel (n / 2) squared result)
        (do
          if n / 2 = 0 then return result
          let squared ← Polynomial.mul bounds base base
          Polynomial.powLoop bounds fuel (n / 2) squared result) :=
      computes_ite (computes_pure result) ((computes_multiplyPolynomials bounds base base).bind
        fun squared => ih (n / 2) squared result)
    refine computes_ite (computes_pure result) (computes_ite ?_ ?_)
    · exact (computes_multiplyPolynomials bounds result base).bind hnext
    · exact (computes_pure result).bind hnext

theorem computes_powPolynomial (p : Polynomial) (n : Nat) :
    Computes (powPolynomial bounds p n) (p.pow bounds n) :=
  computes_powLoop bounds n n p _

theorem computes_polynomialStep (name : String) (e : Expr) (parts : List Polynomial) :
    Computes (polynomialStep bounds name e parts) (Polynomial.step bounds name e parts) := by
  refine computes_ite (computes_pure _) (computes_ite (computes_pure _) ?_)
  cases e with
  | add terms =>
    have hsum := computes_foldlM computes_addPolynomials parts .zero
    rwa [show parts.foldlM (fun p q => Except.ok (ε := Error) (p.add q)) .zero =
      .ok (parts.foldl Polynomial.add .zero) from List.foldlM_pure ..] at hsum
  | mul factors => exact computes_foldlM (computes_multiplyPolynomials bounds) parts _
  | pow base exponent =>
    refine (computes_lift (Polynomial.naturalExponent name exponent)).bind fun n => ?_
    exact computes_ite (computes_pure _)
      (computes_ite (computes_throw _) (computes_powPolynomial bounds _ n))
  | function head arguments => exact computes_throw _
  | _ => exact computes_pure _

theorem runs_canonicalizeAll (coefficients : List (Nat × Expr)) :
    Runs (canonicalizeAll bounds coefficients)
      (Polynomial.canonicalizeAll bounds coefficients) := by
  induction coefficients with
  | nil => exact .pure []
  | cons t rest ih => exact (runs_canonicalize bounds t.2).bind fun c => ih.bind fun rest => .pure _

theorem runs_polynomial (e : Expr) (name : String) :
    Runs (polynomial bounds e name) (Polynomial.ofExpr bounds e name) :=
  (runs_canonicalize bounds e).bind fun canonical =>
    (Runs.storing (computes_foldM (computes_polynomialStep bounds name) canonical)).bind fun raw =>
      (runs_canonicalizeAll bounds raw.coefficients).bind fun _ => .pure _

theorem runs_ofPolynomial (p : Polynomial) (name : String) :
    Runs (ofPolynomial bounds p name) (p.toExpr bounds name) :=
  .storing_bind (computes_make (.symbol name)) (runs_canonicalizeNew bounds _)

/-! ## Solving -/

theorem runs_quotient (numerator denominator : Expr) :
    Runs (quotient bounds numerator denominator) (Solve.quotient bounds numerator denominator) :=
  runs_canonicalizeNew bounds _

theorem runs_squareRoot (d : Expr) :
    Runs (squareRoot bounds d) (Solve.squareRoot bounds d) :=
  .storing_bind (computes_make Solve.half)
    (.ite (runs_canonicalizeNew bounds _) (runs_canonicalizeNew bounds _))

theorem runs_symbolicRoots (a b c : Expr) :
    Runs (symbolicRoots bounds a b c) (Solve.symbolicRoots bounds a b c) := by
  refine (runs_canonicalizeNew bounds _).bind fun discriminant => ?_
  refine .storing_bind (computes_make (.mul [.integer 2, a])) (.storing_bind (computes_make b.neg) ?_)
  refine .ite ((runs_quotient bounds _ _).bind fun root => .pure _) ?_
  refine (runs_squareRoot bounds discriminant).bind fun radical => ?_
  refine .storing_bind (computes_make radical.neg) ?_
  exact (runs_quotient bounds _ _).bind fun first => (runs_quotient bounds _ _).bind fun second =>
    .pure _

theorem runs_quadraticRoots (p : Polynomial) :
    Runs (quadraticRoots bounds p) (Solve.quadraticRoots bounds p) := by
  have hsymbolic := runs_symbolicRoots bounds (p.coefficient 2) (p.coefficient 1) (p.coefficient 0)
  unfold quadraticRoots Solve.quadraticRoots
  dsimp only
  cases (p.coefficient 2).constant? with
  | none => exact hsymbolic
  | some a =>
    cases (p.coefficient 1).constant? with
    | none => exact hsymbolic
    | some b =>
      cases (p.coefficient 0).constant? with
      | none => exact hsymbolic
      | some c =>
        dsimp only
        cases Solve.rationalRoots? a b c with
        | none => exact hsymbolic
        | some roots => exact Runs.storing (computes_making _ roots)

theorem runs_solveUpTo (maxDegree : Nat) (e : Expr) (name : String) :
    Runs (solveUpTo bounds maxDegree e name) (Solve.upTo bounds maxDegree e name) := by
  refine (runs_polynomial bounds e name).bind fun p => .ite (.throw _) ?_
  generalize p.degree?.getD 0 = degree
  rcases degree with - | - | degree
  · exact .pure _
  · exact .storing_bind (computes_make _) ((runs_quotient bounds _ _).bind fun root => .pure _)
  · exact (runs_quadraticRoots bounds p).bind fun roots => .pure _

theorem runs_general (family : SolutionFamily) :
    Runs (general bounds family) (family.general bounds) :=
  .mapM (fun _ => runs_canonicalizeNew bounds _) _

theorem runs_linearCoefficient (unknowns : List String) (number : Nat) (equation : Expr)
    (unknown : String) :
    Runs (linearCoefficient bounds unknowns number equation unknown)
      (LinearSystem.coefficient bounds unknowns number equation unknown) := by
  refine (runs_polynomial bounds equation unknown).bind fun p => ?_
  refine .check (.check ?_)
  cases (p.coefficient 1).constant? with
  | some value => exact .pure value
  | none => exact .throw _

theorem runs_linearEquation (unknowns : List String) (number : Nat) (equation : Expr) :
    Runs (linearEquation bounds unknowns number equation)
      (LinearSystem.linearEquation bounds unknowns number equation) := by
  refine (Runs.mapM (runs_linearCoefficient bounds unknowns number equation) unknowns).bind
    fun coefficients => (runs_substituteAll bounds equation _).bind fun rest => ?_
  cases rest.constant? with
  | some value => exact .pure _
  | none => exact .throw _

theorem runs_linearEquations (unknowns : List String) (equations : List Expr) :
    Runs (linearEquations bounds unknowns equations)
      (LinearSystem.linearEquations bounds unknowns equations) := by
  refine .mapM (fun t => ?_) equations.zipIdx
  exact (runs_canonicalize bounds t.1).bind fun canonical =>
    (runs_linearEquation bounds unknowns (t.2 + 1) canonical).bind fun equation => .pure _

theorem runs_solveSystem (equations : List Expr) (unknowns : List String) :
    Runs (solveSystem bounds equations unknowns)
      (ClosedForm.solveSystem bounds equations unknowns) := by
  refine (runs_linearEquations bounds unknowns equations).bind fun linear => ?_
  dsimp only
  cases (Elimination.run unknowns.length (linear.map Prod.snd)).contradiction? with
  | some row => exact .throw _
  | none => exact .storing_bind (computes_making _ _) (.pure _)

end ClosedForm.Stored
