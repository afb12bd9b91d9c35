import ClosedForm.Bounds
import ClosedForm.Canonical.Form
import ClosedForm.Pool

/-!
# Requests

A session keeps a pool of shared nodes and the memo of canonical forms between requests.
Requests name expressions by their handles, and compute on the expressions behind them.

What a failed request stored or recorded before it failed stays in the session.
-/

namespace ClosedForm

/-- The state between requests. -/
structure Session where
  bounds : Bounds
  pool : Pool
  memo : Memo

/-- A request to a session. -/
abbrev Request := ExceptT Error (StateM Session)

namespace Session

/-- A session that has not been asked anything. -/
def new (bounds : Bounds) : Session :=
  ⟨bounds, .initial, .empty⟩

/-- The answer to a request, and the session after it. -/
def answer {α : Type} (session : Session) (request : Request α) : Except Error α × Session :=
  request.run.run session

/-- Stores nodes. -/
def storing {α : Type} (action : Storing α) : Request α := fun session =>
  let (result, pool) := action.run.run session.pool
  (result, { session with pool := pool })

/-- Computes with the memo. -/
def memoizing {α : Type} (action : Memoizing α) : Request α := fun session =>
  let (result, memo) := action.run.run session.memo
  (result, { session with memo := memo })

/-- Asks with the bounds of the session. -/
def bounded {α : Type} (request : Bounds → Request α) : Request α := fun session =>
  request session.bounds session

/-- The expression behind a handle. -/
def expr (handle : Handle) : Request Expr := fun session =>
  (.ok (session.pool.expr handle), session)

/-- The expressions behind handles. -/
def exprs (handles : List Handle) : Request (List Expr) := fun session =>
  (.ok (handles.map session.pool.expr), session)

/-- Stores an expression. -/
def store (e : Expr) : Request Handle :=
  storing (Pool.share e)

/-- Stores expressions from left to right. -/
def storeAll (es : List Expr) : Request (List Handle) :=
  storing (Pool.shareList es)

end Session

end ClosedForm
