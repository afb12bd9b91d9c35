import ClosedForm.Proofs.Reachable
import Mathlib

/-!
# Sharing in reachable sessions

However a session was reached, its pool holds each node once and only over earlier nodes, so that a
handle unfolds to one expression and different handles unfold to different expressions
(`Pool.Sharing`). Operations do nothing to the pool but store nodes over handles that it has by then
(`Session.Leads.pool_grows`), so that it shares nodes at every moment in between as well, and keeps
the nodes at their places. `Session.Reachable.sharing` puts this together.

`Construction` lists the builders on handles. Where the pool grows, operations that store one node at
a time lead to the same session (`Session.leads_of_grows`), as with builders and with storing an expression.
-/

namespace ClosedForm

namespace Pool

/-- Every node is stored once, the index knows its place, and its children stand before it; hence
handles and the expressions they unfold to correspond to each other. -/
structure Sharing (pool : Pool) : Prop where
  nodup : pool.nodes.toList.Nodup
  index_iff : ∀ (node : Node) (handle : Handle),
    pool.index[node]? = some handle ↔ pool.nodes[handle]? = some node
  child_lt : ∀ (handle : Handle) (node : Node), pool.nodes[handle]? = some node →
    ∀ c ∈ node.children, c < handle
  /-- A handle unfolds to the head of its node over what the children unfold to. -/
  expr_eq : ∀ (handle : Handle) (node : Node), pool.nodes[handle]? = some node →
    pool.expr handle = node.toExpr pool.expr
  /-- There is no other unfolding. -/
  expr_unique : ∀ unfolding : Handle → Expr,
    (∀ (handle : Handle) (node : Node), pool.nodes[handle]? = some node →
      unfolding handle = node.toExpr unfolding) →
    ∀ handle < pool.size, unfolding handle = pool.expr handle
  eq_iff : ∀ a b : Handle, a < pool.size → b < pool.size → (a = b ↔ pool.expr a = pool.expr b)

variable {pool : Pool}

/-- The index has one place for a node. -/
theorem WellFormed.nodup (hpool : pool.WellFormed) : pool.nodes.toList.Nodup := by
  rw [List.nodup_iff_getElem?_ne_getElem?]
  intro a b hab hb heq
  obtain ⟨node, hnode⟩ := exists_node (show b < pool.size by simpa [size] using hb)
  have ha : pool.nodes[a]? = some node := by
    rw [← Array.getElem?_toList, heq, Array.getElem?_toList, hnode]
  have h := (hpool.index_iff node a).mpr ha
  rw [(hpool.index_iff node b).mpr hnode] at h
  exact Nat.ne_of_lt hab (Option.some.inj h).symm

/-- The equation for nodes determines the unfolding, since children stand before their parents. -/
theorem WellFormed.expr_unique (hpool : pool.WellFormed) {unfolding : Handle → Expr}
    (h : ∀ (handle : Handle) (node : Node), pool.nodes[handle]? = some node →
      unfolding handle = node.toExpr unfolding) {handle : Handle} (hlt : handle < pool.size) :
    unfolding handle = pool.expr handle := by
  induction handle using Nat.strongRecOn with
  | ind handle ih =>
    obtain ⟨node, hnode⟩ := exists_node hlt
    rw [h handle node hnode, expr_eq hpool hnode]
    refine toExpr_congr fun c hc => ?_
    have hc' := hpool.child_lt handle node hnode c hc
    exact ih c hc' (Nat.lt_trans hc' hlt)

theorem WellFormed.toSharing (hpool : pool.WellFormed) : pool.Sharing where
  nodup := hpool.nodup
  index_iff := hpool.index_iff
  child_lt := hpool.child_lt
  expr_eq _ _ hnode := Pool.expr_eq hpool hnode
  expr_unique _ h _ hlt := hpool.expr_unique h hlt
  eq_iff _ _ ha hb := ⟨fun heq => by rw [heq], expr_injective hpool ha hb⟩

end Pool

/-! ## Builders -/

/-- A builder with the handles it is applied to. -/
inductive Construction
  | constant (value : Rat)
  | symbol (name : String)
  | sum (terms : List Handle)
  | product (factors : List Handle)
  | pow (base exponent : Handle)
  | neg (e : Handle)
  | inverse (e : Handle)
  | sub (a b : Handle)
  | div (a b : Handle)
  | imaginaryUnit

namespace Construction

/-- The handles that a builder is applied to. -/
def handles : Construction → List Handle
  | sum terms => terms
  | product factors => factors
  | pow base exponent => [base, exponent]
  | neg e | inverse e => [e]
  | sub a b | div a b => [a, b]
  | constant _ | symbol _ | imaginaryUnit => []

/-- What the builder stores. -/
def run : Construction → StateM Pool Handle
  | constant value => Pool.constant value
  | symbol name => Pool.symbol name
  | sum terms => Pool.sum terms
  | product factors => Pool.product factors
  | pow base exponent => Pool.pow base exponent
  | neg e => Pool.neg e
  | inverse e => Pool.inverse e
  | sub a b => Pool.sub a b
  | div a b => Pool.div a b
  | imaginaryUnit => Pool.imaginaryUnit

/-- A builder stores its nodes over the handles it is applied to. -/
theorem grows (construction : Construction) {pool : Pool} (hpool : pool.WellFormed)
    (h : pool.Has construction.handles) : pool.Grows (construction.run.run pool).2 := by
  cases construction with
  | constant value => exact (Pool.constant_spec hpool value).2.1
  | symbol name => exact (Pool.symbol_spec hpool name).2.1
  | sum terms => exact (Pool.sum_spec hpool ⟨h, rfl⟩).2.1
  | product factors => exact (Pool.product_spec hpool ⟨h, rfl⟩).2.1
  | pow base exponent =>
    have hbase := h base (by simp [handles])
    have hexponent := h exponent (by simp [handles])
    exact (Pool.pow_spec hpool ⟨hbase, rfl⟩ ⟨hexponent, rfl⟩).2.1
  | neg e => exact (Pool.neg_spec hpool ⟨h e (by simp [handles]), rfl⟩).2.1
  | inverse e => exact (Pool.inverse_spec hpool ⟨h e (by simp [handles]), rfl⟩).2.1
  | sub a b =>
    have ha := h a (by simp [handles])
    have hb := h b (by simp [handles])
    exact (Pool.sub_spec hpool ⟨ha, rfl⟩ ⟨hb, rfl⟩).2.1
  | div a b =>
    have ha := h a (by simp [handles])
    have hb := h b (by simp [handles])
    exact (Pool.div_spec hpool ⟨ha, rfl⟩ ⟨hb, rfl⟩).2.1
  | imaginaryUnit => exact (Pool.imaginaryUnit_spec hpool).2.1

end Construction

namespace Session

variable {bounds : Bounds}

/-! ## Later sessions -/

/-- Some operations, one after another, lead from a session to a later one. -/
inductive Leads (session : Session) : Session → Prop
  | refl : Leads session session
  | after {later : Session} (operation : Operation) : Leads session later →
      later.pool.Has operation.handles → Leads session (later.after operation)

/-- Where the pool grows, operations that store one node at a time lead to the same session. -/
theorem leads_of_grows {session : Session} {pool : Pool} (h : session.pool.Grows pool) :
    session.Leads { session with pool := pool } := by
  induction h with
  | refl => exact .refl
  | intern node _ hchildren ih => exact .after (.intern node) ih hchildren

theorem Reachable.leads {session later : Session} (h : session.Reachable bounds)
    (hleads : session.Leads later) : later.Reachable bounds := by
  induction hleads with
  | refl => exact h
  | after operation _ hhandles ih => exact ih.after operation hhandles

/-- Operations only store nodes over handles that the pool has by then. -/
theorem Leads.pool_grows {session later : Session} (h : session.Reachable bounds)
    (hleads : session.Leads later) : session.pool.Grows later.pool := by
  induction hleads with
  | refl => exact .refl
  | after operation hleads hhandles ih =>
    exact ih.trans ((h.leads hleads).consistent.after operation hhandles).grows

/-- No operation changes or removes a node. -/
theorem Leads.extends {session later : Session} (h : session.Reachable bounds)
    (hleads : session.Leads later) : session.pool.Extends later.pool :=
  (hleads.pool_grows h).toExtends

theorem Leads.trans {a b c : Session} (hab : a.Leads b) (hbc : b.Leads c) : a.Leads c := by
  induction hbc with
  | refl => exact hab
  | after operation _ hhandles ih => exact ih.after operation hhandles

variable {session : Session}

theorem has_nil (pool : Pool) : pool.Has [] := by
  simp [Pool.Has]

theorem has_cons {pool : Pool} {handle : Handle} {handles : List Handle}
    (h : handle < pool.size) (hs : pool.Has handles) : pool.Has (handle :: handles) :=
  List.forall_mem_cons.mpr ⟨h, hs⟩

theorem has_pair {pool : Pool} {a b : Handle} (ha : a < pool.size) (hb : b < pool.size) :
    pool.Has [a, b] :=
  has_cons ha (has_cons hb (has_nil pool))

/-! ## The invariant -/

/-- The pool of a reachable session shares nodes soundly. Whatever is asked next, and whether it is
answered or fails, the pool only grows node by node, each over handles that it has by then; at every
moment of growing it shares nodes soundly and is one that operations lead to. Every later session has
the nodes at their places. Building on handles and storing expressions lead to later sessions too. -/
theorem Reachable.sharing (h : session.Reachable bounds) :
    session.pool.Sharing ∧
    (∀ operation : Operation, session.pool.Has operation.handles →
      session.pool.Grows (session.after operation).pool) ∧
    (∀ pool, session.pool.Grows pool →
      pool.Sharing ∧ session.Leads { session with pool := pool }) ∧
    (∀ later, session.Leads later → ∀ (handle : Handle) (node : Node),
      session.pool.nodes[handle]? = some node → later.pool.nodes[handle]? = some node) ∧
    (∀ construction : Construction, session.pool.Has construction.handles →
      session.Leads (session.answer (storing construction.run)).2) ∧
    ∀ e, session.Leads (session.answer (store e)).2 := by
  have hpool := h.consistent.pool
  refine ⟨hpool.toSharing, fun operation hhandles => (h.consistent.after operation hhandles).grows,
    fun pool hpool' => ⟨(hpool'.wellFormed hpool).toSharing, leads_of_grows hpool'⟩,
    fun _ hleads => hleads.extends h, fun construction hhandles => ?_, fun e => ?_⟩
  · exact leads_of_grows (construction.grows hpool hhandles)
  · exact leads_of_grows (Pool.share_spec e hpool).2.1

/-- In a session that read `x*y + 1` the pool shares nodes, before and after it differentiates the
expression. -/
theorem sharing_of_text :
    ∃ (session : Session) (handle : Handle), session.Reachable {} ∧
      session.pool.expr handle = .add [.mul [.symbol "x", .symbol "y"], .constant 1] ∧
      session.pool.Sharing ∧
      ∀ node, session.pool.nodes[handle]? = some node →
        (session.after (.differentiate handle "x")).pool.nodes[handle]? = some node := by
  have hread : Formula.read "x*y + 1" =
      .ok (.add [.mul [.symbol "x", .symbol "y"], .constant 1]) := by
    cbv
  obtain ⟨handle, -, hlt, hexpr⟩ := parse_spec (new_consistent {}) hread
  have hreachable : ((new {}).after (.parse "x*y + 1")).Reachable {} :=
    .after _ .new (has_nil _)
  obtain ⟨hsharing, -, -, hleads, -⟩ := hreachable.sharing
  refine ⟨_, handle, hreachable, hexpr, hsharing, ?_⟩
  exact hleads _ (.after (.differentiate handle "x") .refl (has_cons hlt (has_nil _))) handle

end Session

end ClosedForm
