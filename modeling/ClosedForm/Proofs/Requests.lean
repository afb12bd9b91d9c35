import ClosedForm.Proofs.Reading
import ClosedForm.Proofs.Recording
import ClosedForm.Proofs.Stored.Rules
import ClosedForm.Session

/-!
# Requests that compute

A request that computes answers what the computation on expressions gives with the memo of the
session, and stores nodes on the way (`Session.Runs`). So it leads from a consistent session to one
that follows it, also if it fails, and its result stands for the one of the computation
(`Session.Performs`).
-/

namespace ClosedForm

namespace Session

/-- The pool shares nodes soundly and the memo was filled by canonicalizations. -/
structure Consistent (bounds : Bounds) (session : Session) : Prop where
  bounds_eq : session.bounds = bounds
  pool : session.pool.WellFormed
  memo : session.memo.Reachable bounds

/-- The session is consistent, its pool has grown from the one of the earlier session, and the memo
has what canonicalizations added to the earlier one. -/
structure Follows (bounds : Bounds) (session later : Session) : Prop where
  consistent : later.Consistent bounds
  grows : session.pool.Grows later.pool
  memo : session.memo.Grows bounds later.memo

variable {bounds : Bounds}

theorem Consistent.follows {session : Session} (h : session.Consistent bounds) :
    session.Follows bounds session :=
  ⟨h, .refl, .refl⟩

theorem Follows.trans {a b c : Session} (hab : a.Follows bounds b) (hbc : b.Follows bounds c) :
    a.Follows bounds c :=
  ⟨hbc.consistent, hab.grows.trans hbc.grows, hab.memo.trans hbc.memo⟩

/-- Every node of the pool of the earlier session is at its place. -/
theorem Follows.pool {session later : Session} (h : session.Follows bounds later) :
    session.pool.Extends later.pool :=
  h.grows.toExtends

/-- A request goes on with the result of another one where that one ended, unless it failed. -/
theorem answer_bind {α β : Type} (session : Session) (request : Request α) (next : α → Request β) :
    session.answer (request >>= next) =
      match session.answer request with
      | (.ok value, later) => later.answer (next value)
      | (.error x, later) => (.error x, later) := by
  unfold answer
  rw [ExceptT.run_bind, StateT.run_bind]
  generalize request.run.run session = ran
  obtain ⟨_ | _, _⟩ := ran <;> rfl

/-- A request and what comes behind it compute with the same bounds. -/
theorem bounded_bind {α β : Type} (request : Bounds → Request α) (next : α → Request β) :
    bounded request >>= next = bounded fun bounds => request bounds >>= next :=
  rfl

/-- A transformation asks with the expression behind the handle and stores the answer. -/
theorem answer_transform (session : Session) (handle : Handle) (request : Bounds → Expr → Request Expr) :
    session.answer (transform handle request) =
      session.answer (request session.bounds (session.pool.expr handle) >>= store) :=
  rfl

/-! ## Computations in a session -/

/-- The request answers what the computation gives with the memo of the session and leaves the memo
that it leaves, whether it succeeds or fails, after nodes were stored. -/
def Runs {α : Type} (request : Request α) (action : Memoizing α) : Prop :=
  ∀ session : Session, session.pool.WellFormed →
    ∃ pool, session.pool.Grows pool ∧
      session.answer request = ((action.run.run session.memo).1,
        { session with pool := pool, memo := (action.run.run session.memo).2 })

namespace Runs

variable {α β : Type}

theorem pure (value : α) : Runs (pure value) (pure value) :=
  fun session _ => ⟨session.pool, .refl, rfl⟩

theorem throw (e : Error) : Runs (throw e : Request α) (throw e) :=
  fun session _ => ⟨session.pool, .refl, rfl⟩

theorem lift (result : Except Error α) : Runs (liftM result) (liftM result) :=
  fun session _ => ⟨session.pool, .refl, by cases result <;> rfl⟩

/-- A choice that is the same on both sides. -/
theorem ite {p : Prop} [Decidable p] {request other : Request α} {action otherAction : Memoizing α}
    (h : Runs request action) (hother : Runs other otherAction) :
    Runs (if p then request else other) (if p then action else otherAction) := by
  split
  · exact h
  · exact hother

theorem bind {request : Request α} {action : Memoizing α} {next : α → Request β}
    {more : α → Memoizing β} (h : Runs request action)
    (hnext : ∀ value, Runs (next value) (more value)) :
    Runs (request >>= next) (action >>= more) := by
  intro session hpool
  obtain ⟨pool, hgrows, hanswer⟩ := h session hpool
  rw [answer_bind, hanswer, ExceptT.run_bind, StateT.run_bind]
  generalize action.run.run session.memo = ran
  obtain ⟨x | value, memo⟩ := ran
  · exact ⟨pool, hgrows, rfl⟩
  · obtain ⟨last, hgrows', hanswer'⟩ :=
      hnext value { session with pool := pool, memo := memo } (hgrows.wellFormed hpool)
    exact ⟨last, hgrows.trans hgrows', hanswer'⟩

/-- A condition that is checked before the rest. -/
theorem check {p : Prop} [Decidable p] {x : Error} {rest : Request α} {more : Memoizing α}
    (h : Runs rest more) :
    Runs (if p then (MonadExcept.throw x : Request PUnit) >>= fun _ => rest else rest)
      (if p then (MonadExcept.throw x : Memoizing PUnit) >>= fun _ => more else more) :=
  ite ((throw x).bind fun _ => h) h

theorem tryCatch {request : Request α} {action : Memoizing α} {handler : Error → Request α}
    {other : Error → Memoizing α} (h : Runs request action)
    (hhandler : ∀ x, Runs (handler x) (other x)) :
    Runs (tryCatch request handler) (tryCatch action other) := by
  intro session hpool
  obtain ⟨pool, hgrows, hanswer⟩ := h session hpool
  rcases hran : action.run.run session.memo with ⟨x | value, memo⟩
  · rw [hran] at hanswer
    obtain ⟨last, hgrows', hanswer'⟩ :=
      hhandler x { session with pool := pool, memo := memo } (hgrows.wellFormed hpool)
    refine ⟨last, hgrows.trans hgrows', ?_⟩
    rw [run_tryCatch_of_error hran]
    exact (run_tryCatch_of_error hanswer).trans hanswer'
  · rw [hran] at hanswer
    rw [run_tryCatch_of_ok hran]
    exact ⟨pool, hgrows, run_tryCatch_of_ok hanswer⟩

theorem mapM {request : α → Request β} {action : α → Memoizing β}
    (h : ∀ a, Runs (request a) (action a)) (xs : List α) :
    Runs (xs.mapM request) (xs.mapM action) := by
  induction xs with
  | nil => exact pure []
  | cons x xs ih =>
    rw [List.mapM_cons, List.mapM_cons]
    exact (h x).bind fun y => ih.bind fun ys => pure (y :: ys)

/-- Storing does not look at the memo. -/
theorem storing {action : Storing α} {result : Except Error α} (h : Stored.Computes action result) :
    Runs (storing action) (liftM result) := by
  intro session hpool
  obtain ⟨pool, hgrows, hrun⟩ := h session.pool hpool
  refine ⟨pool, hgrows, ?_⟩
  rw [run_lift]
  exact congrArg (fun ran => (ran.1, { session with pool := ran.2 })) hrun

/-- An expression that is made on the way. -/
theorem storing_bind {action : Storing α} {value : α} {next : α → Request β} {more : Memoizing β}
    (h : Stored.Computes action (.ok value)) (hnext : Runs (next value) more) :
    Runs (Session.storing action >>= next) more := by
  intro session hpool
  obtain ⟨pool, hgrows, hanswer⟩ := storing h session hpool
  obtain ⟨last, hgrows', hanswer'⟩ :=
    hnext { session with pool := pool } (hgrows.wellFormed hpool)
  refine ⟨last, hgrows.trans hgrows', ?_⟩
  rw [answer_bind, hanswer]
  exact hanswer'

end Runs

/-! ## What requests give -/

/-- The request leads to a session that follows, with the memo that the computation leaves. It
answers with what `stands` relates in the pool to the value of the computation, or with its error. -/
def Performs {α β : Type} (bounds : Bounds) (session : Session) (request : Request α)
    (action : Memoizing β) (stands : β → α → Pool → Prop) : Prop :=
  ∃ later, session.Follows bounds later ∧ later.memo = (action.run.run session.memo).2 ∧
    match (action.run.run session.memo).1 with
    | .ok b => ∃ a, session.answer request = (.ok a, later) ∧ stands b a later.pool
    | .error x => session.answer request = (.error x, later)

namespace Performs

variable {α β : Type} {session later : Session} {request : Request α} {action : Memoizing β}
  {stands : β → α → Pool → Prop}

/-- The session after the request follows. -/
theorem follows (h : session.Performs bounds request action stands) :
    session.Follows bounds (session.answer request).2 := by
  obtain ⟨later, hfollows, -, houtcome⟩ := h
  generalize (action.run.run session.memo).1 = outcome at houtcome
  cases outcome with
  | error x =>
    rw [show session.answer request = (.error x, later) from houtcome]
    exact hfollows
  | ok b =>
    obtain ⟨a, hanswer, -⟩ := houtcome
    rw [hanswer]
    exact hfollows

/-- The memo after the request is the one that the computation leaves. -/
theorem memo_eq (h : session.Performs bounds request action stands) :
    (session.answer request).2.memo = (action.run.run session.memo).2 := by
  obtain ⟨later, -, hmemo, houtcome⟩ := h
  generalize (action.run.run session.memo).1 = outcome at houtcome
  cases outcome with
  | error x =>
    rw [show session.answer request = (.error x, later) from houtcome]
    exact hmemo
  | ok b =>
    obtain ⟨a, hanswer, -⟩ := houtcome
    rw [hanswer]
    exact hmemo

/-- A computation that ends well is answered. -/
theorem of_run (h : session.Performs bounds request action stands) {b : β} {memo : Memo}
    (hrun : action.run.run session.memo = (.ok b, memo)) :
    ∃ a later, session.answer request = (.ok a, later) ∧ session.Follows bounds later ∧
      later.memo = memo ∧ stands b a later.pool := by
  obtain ⟨later, hfollows, hmemo, houtcome⟩ := h
  rw [hrun] at hmemo houtcome
  obtain ⟨a, hanswer, hstands⟩ := houtcome
  exact ⟨a, later, hanswer, hfollows, hmemo, hstands⟩

/-- A computation that ends well is answered in a session that follows. -/
theorem of_ok (h : session.Performs bounds request action stands) {b : β}
    (hrun : (action.run.run session.memo).1 = .ok b) :
    ∃ a later, session.answer request = (.ok a, later) ∧ session.Follows bounds later ∧
      stands b a later.pool := by
  obtain ⟨a, later, hanswer, hfollows, -, hstands⟩ := h.of_run (Prod.ext hrun rfl)
  exact ⟨a, later, hanswer, hfollows, hstands⟩

/-- A handle of what is computed is the one that the request gives. -/
theorem answer_eq {request : Request Handle} {action : Memoizing Expr}
    (h : session.Performs bounds request action Pool.StandsFor) (hsession : session.Consistent bounds)
    {other : Handle} {c : Expr} (hother : Pool.StandsFor c other session.pool)
    (hrun : (action.run.run session.memo).1 = .ok c) : (session.answer request).1 = .ok other := by
  obtain ⟨result, later, hanswer, hfollows, hstands⟩ := h.of_ok hrun
  have hlater := hfollows.consistent.pool
  have hother' := hother.mono hsession.pool hlater hfollows.pool
  rw [hanswer, Pool.expr_injective hlater hstands.1 hother'.1 (hstands.2.trans hother'.2.symm)]

/-- A computation that fails is answered with its error. -/
theorem of_run_error (h : session.Performs bounds request action stands) {x : Error}
    (hrun : (action.run.run session.memo).1 = .error x) : (session.answer request).1 = .error x := by
  obtain ⟨later, -, -, houtcome⟩ := h
  rw [hrun] at houtcome
  rw [show session.answer request = (.error x, later) from houtcome]

/-- What is answered is what the computation gives. -/
theorem of_answer (h : session.Performs bounds request action stands) {a : α}
    (hanswer : session.answer request = (.ok a, later)) :
    ∃ b, action.run.run session.memo = (.ok b, later.memo) ∧ session.Follows bounds later ∧
      stands b a later.pool := by
  obtain ⟨last, hfollows, hmemo, houtcome⟩ := h
  generalize action.run.run session.memo = ran at hmemo houtcome ⊢
  obtain ⟨x | b, memo⟩ := ran
  · cases hanswer.symm.trans houtcome
  · obtain ⟨a', hanswer', hstands⟩ := houtcome
    cases hanswer.symm.trans hanswer'
    exact ⟨b, by rw [hmemo], hfollows, hstands⟩

/-- A value is answered as it is. -/
theorem run_eq {action : Memoizing α} (h : session.Performs bounds request action fun b a _ => a = b)
    {outcome : Except Error α} (hanswer : session.answer request = (outcome, later)) :
    action.run.run session.memo = (outcome, later.memo) := by
  have hmemo := h.memo_eq
  rw [hanswer] at hmemo
  refine Prod.ext ?_ hmemo.symm
  cases hrun : (action.run.run session.memo).1 with
  | error x =>
    have hfails := h.of_run_error hrun
    rw [hanswer] at hfails
    exact hfails.symm
  | ok b =>
    obtain ⟨a, last, hends, -, rfl⟩ := h.of_ok hrun
    rw [hanswer] at hends
    exact (congrArg Prod.fst hends).symm

theorem outcome_eq {action : Memoizing α}
    (h : session.Performs bounds request action fun b a _ => a = b) :
    (session.answer request).1 = (action.run.run session.memo).1 :=
  (congrArg Prod.fst (h.run_eq rfl)).symm

theorem pure {a : α} {b : β} (h : session.Consistent bounds) (hstands : stands b a session.pool) :
    session.Performs bounds (Pure.pure a) (Pure.pure b) stands :=
  ⟨session, h.follows, rfl, a, rfl, hstands⟩

theorem throw (h : session.Consistent bounds) (x : Error) :
    session.Performs bounds (MonadExcept.throw x : Request α) (MonadExcept.throw x : Memoizing β)
      stands :=
  ⟨session, h.follows, rfl, rfl⟩

/-- A computation that runs in the session. -/
theorem of_runs (hsession : session.Consistent bounds) {action : Memoizing α}
    (h : Runs request action) (hrecording : Recording bounds action) :
    session.Performs bounds request action fun b a _ => a = b := by
  obtain ⟨pool, hgrows, hanswer⟩ := h session hsession.pool
  have hmemo := hrecording session.memo
  refine ⟨{ session with pool := pool, memo := (action.run.run session.memo).2 }, ?_, rfl, ?_⟩
  · exact ⟨⟨hsession.bounds_eq, hgrows.wellFormed hsession.pool, hsession.memo.grows hmemo⟩, hgrows,
      hmemo⟩
  · rw [hanswer]
    cases (action.run.run session.memo).1 with
    | error x => rfl
    | ok b => exact ⟨b, rfl, rfl⟩

/-- Storing does not look at the memo. -/
theorem storing (hsession : session.Consistent bounds) {action : Storing α} {result : Except Error β}
    (h : Pool.StoresAs session.pool action result stands) :
    session.Performs bounds (storing action) (liftM result) stands := by
  obtain ⟨hpool, hgrows, hresult⟩ := h
  refine ⟨{ session with pool := (action.run.run session.pool).2 },
    ⟨⟨hsession.bounds_eq, hpool, hsession.memo⟩, hgrows, ?_⟩, ?_, ?_⟩
  · exact .refl
  · rw [run_lift]
  · rw [run_lift]
    cases result with
    | error x => exact Prod.ext hresult rfl
    | ok b =>
      obtain ⟨a, ha, hstands⟩ := hresult
      exact ⟨a, Prod.ext ha rfl, hstands⟩

theorem bind {γ δ : Type} {next : α → Request γ} {more : β → Memoizing δ}
    {mid : β → α → Pool → Prop} {post : δ → γ → Pool → Prop}
    (h : session.Performs bounds request action mid)
    (hnext : ∀ a b later, session.Follows bounds later → mid b a later.pool →
      later.Performs bounds (next a) (more b) post) :
    session.Performs bounds (request >>= next) (action >>= more) post := by
  obtain ⟨later, hfollows, hmemo, houtcome⟩ := h
  unfold Performs
  rw [answer_bind, ExceptT.run_bind, StateT.run_bind]
  generalize action.run.run session.memo = ran at hmemo houtcome ⊢
  obtain ⟨x | b, memo⟩ := ran
  · rw [show session.answer request = (.error x, later) from houtcome]
    exact ⟨later, hfollows, hmemo, rfl⟩
  · obtain ⟨a, hanswer, hmid⟩ := houtcome
    obtain rfl : later.memo = memo := hmemo
    obtain ⟨last, hfollows', hlast⟩ := hnext a b later hfollows hmid
    rw [hanswer]
    exact ⟨last, hfollows.trans hfollows', hlast⟩

/-- Storing an expression gives a handle of it. -/
theorem store (hsession : session.Consistent bounds) (e : Expr) :
    session.Performs bounds (Session.store e) (Pure.pure e) Pool.StandsFor :=
  storing hsession (.lift (Pool.share_spec e hsession.pool) fun _ _ h => h)

/-- Storing what is computed. -/
theorem runs_store (hsession : session.Consistent bounds) {request : Request Expr}
    {action : Memoizing Expr} (h : Runs request action) (hrecording : Recording bounds action) :
    session.Performs bounds (request >>= Session.store) action Pool.StandsFor := by
  have hstore : session.Performs bounds (request >>= Session.store) (action >>= Pure.pure)
      Pool.StandsFor := by
    refine (of_runs hsession h hrecording).bind fun a e later hlater heq => ?_
    subst heq
    exact store hlater.consistent a
  rwa [bind_pure] at hstore

/-- The bounds of the session are those of the computation. -/
theorem bounded {request : Bounds → Request α} (hsession : session.Consistent bounds)
    (h : session.Performs bounds (request bounds) action stands) :
    session.Performs bounds (bounded request) action stands := by
  have hanswer : session.answer (Session.bounded request) = session.answer (request bounds) := by
    rw [← hsession.bounds_eq]
    rfl
  unfold Performs
  rwa [hanswer]

/-- Storing what is computed with the bounds of the session. -/
theorem bounded_store (hsession : session.Consistent bounds) {request : Bounds → Request Expr}
    {action : Memoizing Expr} (h : Runs (request bounds) action)
    (hrecording : Recording bounds action) :
    session.Performs bounds (Session.bounded request >>= Session.store) action Pool.StandsFor := by
  rw [bounded_bind]
  exact bounded hsession (runs_store hsession h hrecording)

/-- Reading the expression behind a handle computes nothing. -/
theorem expr_bind {handle : Handle} {next : Expr → Request α}
    (h : session.Performs bounds (next (session.pool.expr handle)) action stands) :
    session.Performs bounds (expr handle >>= next) action stands := by
  have hanswer : session.answer (expr handle >>= next) =
      session.answer (next (session.pool.expr handle)) := answer_bind session _ next
  unfold Performs at h ⊢
  rwa [hanswer]

/-- Reading the expressions behind handles computes nothing. -/
theorem exprs_bind {handles : List Handle} {next : List Expr → Request α}
    (h : session.Performs bounds (next (handles.map session.pool.expr)) action stands) :
    session.Performs bounds (exprs handles >>= next) action stands := by
  have hanswer : session.answer (exprs handles >>= next) =
      session.answer (next (handles.map session.pool.expr)) := answer_bind session _ next
  unfold Performs at h ⊢
  rwa [hanswer]

/-- Computing from the expression behind a handle. -/
theorem transform (hsession : session.Consistent bounds) (handle : Handle)
    {request : Bounds → Expr → Request Expr} {action : Expr → Memoizing Expr}
    (h : ∀ e, Runs (request bounds e) (action e)) (hrecording : ∀ e, Recording bounds (action e)) :
    session.Performs bounds (transform handle request) (action (session.pool.expr handle))
      Pool.StandsFor :=
  expr_bind (bounded_store hsession (h _) (hrecording _))

/-- Storing a node over handles of the pool gives a handle of its head over their expressions. -/
theorem intern (h : session.Consistent bounds) {node : Node}
    (hchildren : session.pool.Has node.children) :
    session.Performs bounds (Session.storing (Pool.intern node))
      (Pure.pure (node.toExpr session.pool.expr)) Pool.StandsFor :=
  storing h (.lift (Pool.intern_expr h.pool node hchildren) fun _ _ hstands => hstands)

/-- Storing a node computes nothing. -/
theorem intern_bind {γ : Type} (h : session.Consistent bounds) {node : Node}
    (hchildren : session.pool.Has node.children) {next : Handle → Request γ}
    {post : β → γ → Pool → Prop}
    (hnext : ∀ handle later, session.Follows bounds later →
      Pool.StandsFor (node.toExpr session.pool.expr) handle later.pool →
        later.Performs bounds (next handle) action post) :
    session.Performs bounds (Session.storing (Pool.intern node) >>= next) action post := by
  have hintern : session.Performs bounds (Session.storing (Pool.intern node)) (Pure.pure ())
      fun _ => Pool.StandsFor (node.toExpr session.pool.expr) :=
    storing h (.lift (Pool.intern_expr h.pool node hchildren) fun _ _ hstands => hstands)
  have hbind := hintern.bind fun handle _ later => hnext handle later
  rwa [pure_bind] at hbind

end Performs

end Session

end ClosedForm
