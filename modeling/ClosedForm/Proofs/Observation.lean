import ClosedForm.Proofs.Sharing

/-!
# What a session shows

A handle is a number that depends on everything that was stored before. What a session answers does
not, read with expressions in place of handles (`Session.reply`): it is what the operation comes to on
the expressions behind its handles, with the bounds and the memo (`Operation.meaning`,
`Session.ask_spec`).

So sessions that differ in stored nodes only answer alike, and go on to do so, where they are asked the
same about the same expressions (`Session.Parallel.reply_eq`).
-/

namespace ClosedForm

/-- An answer, with expressions in place of handles. -/
inductive Reply
  | expr (e : Expr)
  | exprs (es : List Expr)
  | number (value : Float)
  | polynomial (p : Polynomial)
  | solutions (solutions : SolutionSet)
  | system (solution : SystemSolution) (diagnostics : Diagnostics)

/-- The answer that a handle is. -/
def Reply.ofHandle (pool : Pool) (handle : Handle) : Reply :=
  .expr (pool.expr handle)

/-- The node over other handles. -/
def Node.rename (f : Handle → Handle) : Node → Node
  | constant value => constant value
  | symbol name => symbol name
  | add terms => add (terms.map f)
  | mul factors => mul (factors.map f)
  | pow base exponent => pow (f base) (f exponent)
  | function head arguments => function head (arguments.map f)

namespace Operation

/-- What an operation comes to where its handles stand for these expressions. -/
def meaning (bounds : Bounds) (expr : Handle → Expr) : Operation → Memoizing Reply
  | intern node => return .expr (node.toExpr expr)
  | apply head arguments =>
    if arguments.length = head.arity then return .expr (.function head (arguments.map expr))
    else throw (.arity head arguments.length)
  | parse text => .expr <$> liftM (Formula.read text)
  | parseEquationRaw text => .expr <$> liftM (Pool.readEquation text)
  | canonicalize handle => .expr <$> ClosedForm.canonicalize bounds (expr handle)
  | canonicalizeWithin handle maxPasses =>
    .expr <$> ClosedForm.canonicalizeWithin bounds maxPasses (expr handle)
  | parseCanonical text => do
    let e ← Formula.read text
    .expr <$> ClosedForm.canonicalize bounds e
  | parseEquation text => do
    let e ← Pool.readEquation text
    .expr <$> ClosedForm.canonicalize bounds e
  | expand handle => .expr <$> ClosedForm.expand bounds (expr handle)
  | substituteAll handle bindings =>
    .expr <$> ClosedForm.substituteAll bounds (expr handle)
      ((bindings.map Prod.fst).zip ((bindings.map Prod.snd).map expr))
  | simplifyAdd terms => return .expr (Canonical.add (terms.map expr))
  | simplifyMul factors => .expr <$> liftM (Canonical.multiply bounds (factors.map expr))
  | simplifyPow base exponent => .expr <$> liftM (Canonical.power bounds (expr base) (expr exponent))
  | differentiate handle name => .expr <$> ClosedForm.differentiate bounds (expr handle) name
  | differentiateN handle name n => .expr <$> ClosedForm.differentiateN bounds (expr handle) name n
  | limit handle name point => .expr <$> ClosedForm.limit bounds (expr handle) name (expr point)
  | taylor handle name point order =>
    .expr <$> ClosedForm.taylor bounds (expr handle) name (expr point) order
  | maclaurin handle name order => .expr <$> ClosedForm.maclaurin bounds (expr handle) name order
  | evaluate handle bindings => .number <$> ClosedForm.evaluate bounds (expr handle) bindings
  | polynomial handle name => .polynomial <$> Polynomial.ofExpr bounds (expr handle) name
  | ofPolynomial p name => .expr <$> p.toExpr bounds name
  | addPolynomials p q => return .polynomial (p.add q)
  | multiplyPolynomials p q => .polynomial <$> liftM (p.mul bounds q)
  | powPolynomial p n => .polynomial <$> liftM (p.pow bounds n)
  | solve handle name => .solutions <$> ClosedForm.solve bounds (expr handle) name
  | solveLinear handle name => .solutions <$> ClosedForm.solveLinear bounds (expr handle) name
  | solveSystem equations unknowns =>
    (fun result => .system result.1 result.2) <$>
      ClosedForm.solveSystem bounds (equations.map expr) unknowns
  | general family => .exprs <$> family.general bounds

/-- The operation on other handles. -/
def rename (f : Handle → Handle) : Operation → Operation
  | intern node => intern (node.rename f)
  | apply head arguments => apply head (arguments.map f)
  | parse text => parse text
  | parseEquationRaw text => parseEquationRaw text
  | canonicalize handle => canonicalize (f handle)
  | canonicalizeWithin handle maxPasses => canonicalizeWithin (f handle) maxPasses
  | parseCanonical text => parseCanonical text
  | parseEquation text => parseEquation text
  | expand handle => expand (f handle)
  | substituteAll handle bindings => substituteAll (f handle) (bindings.map fun b => (b.1, f b.2))
  | simplifyAdd terms => simplifyAdd (terms.map f)
  | simplifyMul factors => simplifyMul (factors.map f)
  | simplifyPow base exponent => simplifyPow (f base) (f exponent)
  | differentiate handle name => differentiate (f handle) name
  | differentiateN handle name n => differentiateN (f handle) name n
  | limit handle name point => limit (f handle) name (f point)
  | taylor handle name point order => taylor (f handle) name (f point) order
  | maclaurin handle name order => maclaurin (f handle) name order
  | evaluate handle bindings => evaluate (f handle) bindings
  | polynomial handle name => polynomial (f handle) name
  | ofPolynomial p name => ofPolynomial p name
  | addPolynomials p q => addPolynomials p q
  | multiplyPolynomials p q => multiplyPolynomials p q
  | powPolynomial p n => powPolynomial p n
  | solve handle name => solve (f handle) name
  | solveLinear handle name => solveLinear (f handle) name
  | solveSystem equations unknowns => solveSystem (equations.map f) unknowns
  | general family => general family

theorem meaning_rename (bounds : Bounds) (expr : Handle → Expr) (f : Handle → Handle)
    (operation : Operation) :
    (operation.rename f).meaning bounds expr = operation.meaning bounds fun h => expr (f h) := by
  cases operation with
  | intern node => cases node <;> simp [rename, meaning, Node.rename, Node.toExpr, Function.comp_def]
  | _ => simp [rename, meaning, Function.comp_def]

/-- Only the expressions behind the handles that it names matter to an operation. -/
theorem meaning_congr (bounds : Bounds) {expr other : Handle → Expr} {operation : Operation}
    (h : ∀ handle ∈ operation.handles, expr handle = other handle) :
    operation.meaning bounds expr = operation.meaning bounds other := by
  cases operation with
  | intern node =>
    have hnode : node.toExpr expr = node.toExpr other := Pool.toExpr_congr h
    simp only [meaning, hnode]
  | apply head arguments =>
    have harguments : arguments.map expr = arguments.map other := List.map_congr_left h
    simp only [meaning, harguments]
  | substituteAll handle bindings =>
    have hhandle := h handle (by simp [handles])
    have hbindings : (bindings.map Prod.snd).map expr = (bindings.map Prod.snd).map other :=
      List.map_congr_left fun b hb => h b (List.mem_cons_of_mem _ hb)
    simp only [meaning, hhandle, hbindings]
  | simplifyAdd terms =>
    have hterms : terms.map expr = terms.map other := List.map_congr_left h
    simp only [meaning, hterms]
  | simplifyMul factors =>
    have hfactors : factors.map expr = factors.map other := List.map_congr_left h
    simp only [meaning, hfactors]
  | solveSystem equations unknowns =>
    have hequations : equations.map expr = equations.map other := List.map_congr_left h
    simp only [meaning, hequations]
  | _ => simp_all [meaning, handles]

end Operation

namespace Session

variable {bounds : Bounds}

/-! ## Answers -/

/-- The answer to a request, as it looks in the session after it. -/
def observe {α : Type} (session : Session) (request : Request α) (view : Pool → α → Reply) :
    Except Error Reply × Session :=
  let (outcome, later) := session.answer request
  (outcome.map (view later.pool), later)

/-- The answer to an operation, and the session after it. -/
def ask (session : Session) : Operation → Except Error Reply × Session
  | .intern node => session.observe (storing (Pool.intern node)) .ofHandle
  | .apply head arguments => session.observe (apply head arguments) .ofHandle
  | .parse text => session.observe (parse text) .ofHandle
  | .parseEquationRaw text => session.observe (parseEquationRaw text) .ofHandle
  | .canonicalize handle => session.observe (canonicalize handle) .ofHandle
  | .canonicalizeWithin handle maxPasses =>
    session.observe (canonicalizeWithin handle maxPasses) .ofHandle
  | .parseCanonical text => session.observe (parseCanonical text) .ofHandle
  | .parseEquation text => session.observe (parseEquation text) .ofHandle
  | .expand handle => session.observe (expand handle) .ofHandle
  | .substituteAll handle bindings => session.observe (substituteAll handle bindings) .ofHandle
  | .simplifyAdd terms => session.observe (simplifyAdd terms) .ofHandle
  | .simplifyMul factors => session.observe (simplifyMul factors) .ofHandle
  | .simplifyPow base exponent => session.observe (simplifyPow base exponent) .ofHandle
  | .differentiate handle name => session.observe (differentiate handle name) .ofHandle
  | .differentiateN handle name n => session.observe (differentiateN handle name n) .ofHandle
  | .limit handle name point => session.observe (limit handle name point) .ofHandle
  | .taylor handle name point order => session.observe (taylor handle name point order) .ofHandle
  | .maclaurin handle name order => session.observe (maclaurin handle name order) .ofHandle
  | .evaluate handle bindings => session.observe (evaluate handle bindings) fun _ => .number
  | .polynomial handle name => session.observe (polynomial handle name) fun _ => .polynomial
  | .ofPolynomial p name => session.observe (ofPolynomial p name) .ofHandle
  | .addPolynomials p q => session.observe (addPolynomials p q) fun _ => .polynomial
  | .multiplyPolynomials p q => session.observe (multiplyPolynomials p q) fun _ => .polynomial
  | .powPolynomial p n => session.observe (powPolynomial p n) fun _ => .polynomial
  | .solve handle name => session.observe (solve handle name) fun _ => .solutions
  | .solveLinear handle name => session.observe (solveLinear handle name) fun _ => .solutions
  | .solveSystem equations unknowns =>
    session.observe (solveSystem equations unknowns) fun _ result => .system result.1 result.2
  | .general family => session.observe (general family) fun _ => .exprs

/-- What the session answers to an operation. -/
def reply (session : Session) (operation : Operation) : Except Error Reply :=
  (session.ask operation).1

theorem observe_snd {α : Type} (session : Session) (request : Request α) (view : Pool → α → Reply) :
    (session.observe request view).2 = (session.answer request).2 :=
  rfl

theorem ask_snd (session : Session) (operation : Operation) :
    (session.ask operation).2 = session.after operation := by
  cases operation <;> exact observe_snd session _ _

/-- The request is answered as the computation with the memo ends, and records what it does. -/
def Shows {α : Type} (session : Session) (request : Request α) (view : Pool → α → Reply)
    (action : Memoizing Reply) : Prop :=
  ((session.observe request view).1, (session.observe request view).2.memo) =
    action.run.run session.memo

variable {session : Session} {α : Type}

/-- A computation without handles in its result. -/
theorem shows_value {request : Request α} {action : Memoizing α}
    (h : session.Performs bounds request action fun b a _ => a = b) (view : α → Reply) :
    session.Shows request (fun _ => view) (view <$> action) := by
  unfold Shows observe
  rw [run_map, h.run_eq (Prod.mk.eta (p := session.answer request)).symm]

/-- A handle of what is computed is answered with the expression that it stands for. -/
theorem shows_handle {request : Request Handle} {action : Memoizing Expr}
    (h : session.Performs bounds request action Pool.StandsFor) :
    session.Shows request .ofHandle (.expr <$> action) := by
  obtain ⟨later, -, hmemo, houtcome⟩ := h
  unfold Shows observe
  rw [run_map, ← hmemo]
  generalize (action.run.run session.memo).1 = outcome at houtcome ⊢
  cases outcome with
  | error x =>
    rw [show session.answer request = (.error x, later) from houtcome]
    rfl
  | ok e =>
    obtain ⟨handle, hanswer, -, hexpr⟩ := houtcome
    rw [hanswer, ← hexpr]
    rfl

/-- The answer to an operation is what it comes to on the expressions behind its handles. -/
theorem ask_spec (h : session.Consistent bounds) {operation : Operation}
    (hhandles : session.pool.Has operation.handles) :
    (session.reply operation, (session.after operation).memo) =
      (operation.meaning bounds session.pool.expr).run.run session.memo := by
  rw [← ask_snd]
  unfold reply
  cases operation <;> simp only [ask, Operation.meaning]
  case intern node => exact shows_handle (Performs.intern h hhandles)
  case apply head arguments =>
    have harguments : session.pool.Has arguments := hhandles
    have hshows := shows_handle (apply_performs h head harguments)
    split_ifs at hshows ⊢ <;> exact hshows
  case parse text => exact shows_handle (parse_performs h text)
  case parseEquationRaw text => exact shows_handle (parseEquationRaw_performs h text)
  case parseCanonical text =>
    have hshows := shows_handle (parseCanonical_performs h text)
    rwa [map_bind] at hshows
  case parseEquation text =>
    have hshows := shows_handle (parseEquation_performs h text)
    rwa [map_bind] at hshows
  case canonicalize handle => exact shows_handle (canonicalize_performs h handle)
  case canonicalizeWithin handle maxPasses =>
    exact shows_handle (canonicalizeWithin_performs h handle maxPasses)
  case expand handle => exact shows_handle (expand_performs h handle)
  case substituteAll handle bindings => exact shows_handle (substituteAll_performs h handle bindings)
  case simplifyAdd terms => exact shows_handle (simplifyAdd_performs h terms)
  case simplifyMul factors => exact shows_handle (simplifyMul_performs h factors)
  case simplifyPow base exponent => exact shows_handle (simplifyPow_performs h base exponent)
  case differentiate handle name => exact shows_handle (differentiate_performs h handle name)
  case differentiateN handle name n => exact shows_handle (differentiateN_performs h handle name n)
  case limit handle name point => exact shows_handle (limit_performs h handle name point)
  case taylor handle name point order => exact shows_handle (taylor_performs h handle name point order)
  case maclaurin handle name order => exact shows_handle (maclaurin_performs h handle name order)
  case evaluate handle bindings => exact shows_value (evaluate_performs h handle bindings) .number
  case polynomial handle name => exact shows_value (polynomial_performs h handle name) .polynomial
  case ofPolynomial p name => exact shows_handle (ofPolynomial_performs h p name)
  case addPolynomials p q => exact shows_value (addPolynomials_performs h p q) .polynomial
  case multiplyPolynomials p q => exact shows_value (multiplyPolynomials_performs h p q) .polynomial
  case powPolynomial p n => exact shows_value (powPolynomial_performs h p n) .polynomial
  case solve handle name => exact shows_value (solve_performs h handle name) .solutions
  case solveLinear handle name => exact shows_value (solveLinear_performs h handle name) .solutions
  case solveSystem equations unknowns =>
    exact shows_value (solveSystem_performs h equations unknowns)
      fun result => .system result.1 result.2
  case general family => exact shows_value (general_performs h family) .exprs

/-! ## Sessions side by side -/

/-- Renamed, the handles of an operation stand in the second session for what they stand for in the
first one. -/
structure Carries (first second : Session) (operation : Operation) (f : Handle → Handle) : Prop where
  known : first.pool.Has operation.handles
  renamed_known : second.pool.Has (operation.rename f).handles
  expr_eq : ∀ handle ∈ operation.handles, second.pool.expr (f handle) = first.pool.expr handle

/-- Operations about the same expressions, one after another, lead from two sessions to these. -/
inductive Parallel (first second : Session) : Session → Session → Prop
  | start : Parallel first second first second
  | after {left right : Session} (operation : Operation) (f : Handle → Handle) :
      Parallel first second left right → left.Carries right operation f →
      Parallel first second (left.after operation) (right.after (operation.rename f))

/-- Sessions with the same memo answer alike about the same expressions, and record the same. -/
theorem Carries.ask_eq {left right : Session} {operation : Operation} {f : Handle → Handle}
    (h : left.Carries right operation f) (hleft : left.Consistent bounds)
    (hright : right.Consistent bounds) (hmemo : right.memo = left.memo) :
    right.reply (operation.rename f) = left.reply operation ∧
      (right.after (operation.rename f)).memo = (left.after operation).memo := by
  rw [← Prod.mk.injEq, ask_spec hright h.renamed_known, ask_spec hleft h.known, hmemo,
    Operation.meaning_rename, Operation.meaning_congr bounds h.expr_eq]

theorem Parallel.alike {first second left right : Session} (h : first.Parallel second left right)
    (hfirst : first.Consistent bounds) (hsecond : second.Consistent bounds)
    (hmemo : second.memo = first.memo) :
    left.Consistent bounds ∧ right.Consistent bounds ∧ right.memo = left.memo := by
  induction h with
  | start => exact ⟨hfirst, hsecond, hmemo⟩
  | after operation f _ hcarries ih =>
    obtain ⟨hleft, hright, hsame⟩ := ih
    exact ⟨(hleft.after operation hcarries.known).consistent,
      (hright.after _ hcarries.renamed_known).consistent, (hcarries.ask_eq hleft hright hsame).2⟩

/-- Sessions that differ in stored nodes only never answer differently about the same expressions. -/
theorem Parallel.reply_eq {first second left right : Session}
    (h : first.Parallel second left right) (hfirst : first.Consistent bounds)
    (hsecond : second.Consistent bounds) (hmemo : second.memo = first.memo) {operation : Operation}
    {f : Handle → Handle} (hcarries : left.Carries right operation f) :
    right.reply (operation.rename f) = left.reply operation := by
  obtain ⟨hleft, hright, hsame⟩ := h.alike hfirst hsecond hmemo
  exact (hcarries.ask_eq hleft hright hsame).1

end Session

end ClosedForm
