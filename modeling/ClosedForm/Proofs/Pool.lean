import ClosedForm.Pool
import Mathlib.Order.Basic
import Mathlib.Tactic.Common

/-!
# Pools that share nodes soundly

In a well-formed pool (`Pool.WellFormed`) the index knows exactly the stored nodes and
the children of a node stand before it. Then a handle stands for the node's head over what its
children stand for (`expr_eq`), and two handles that stand for one expression are equal
(`expr_injective`).

A pool grows by storing nodes over handles that it has (`Pool.Grows`), which keeps it well-formed and
changes no node that is there (`Pool.Extends`), so what a handle stands for never changes
(`Extends.expr_eq`). `share_spec` says that an expression that was stored is read back from its
handle.
-/

namespace ClosedForm

namespace Pool

/-- The index knows the stored nodes and nothing else, and children stand before their
parents. -/
structure WellFormed (pool : Pool) : Prop where
  index_iff : ∀ (node : Node) (handle : Handle), pool.index[node]? = some handle ↔ pool.nodes[handle]? = some node
  child_lt : ∀ (handle : Handle) (node : Node), pool.nodes[handle]? = some node →
    ∀ c ∈ node.children, c < handle

/-- Every node of `pool` is at the same place in `later`. -/
def Extends (pool later : Pool) : Prop :=
  ∀ (handle : Handle) (node : Node), pool.nodes[handle]? = some node → later.nodes[handle]? = some node

theorem Extends.refl (pool : Pool) : pool.Extends pool :=
  fun _ _ h => h

theorem Extends.trans {a b c : Pool} (hab : a.Extends b) (hbc : b.Extends c) : a.Extends c :=
  fun handle node h => hbc handle node (hab handle node h)

theorem exists_node {pool : Pool} {handle : Handle} (h : handle < pool.size) :
    ∃ node, pool.nodes[handle]? = some node :=
  ⟨pool.nodes[handle], Array.getElem?_eq_getElem h⟩

theorem lt_size {pool : Pool} {handle : Handle} {node : Node}
    (h : pool.nodes[handle]? = some node) : handle < pool.size :=
  (Array.getElem?_eq_some_iff.mp h).1

theorem Extends.lt_size {pool later : Pool} (h : pool.Extends later) {handle : Handle}
    (hlt : handle < pool.size) : handle < later.size := by
  obtain ⟨node, hnode⟩ := exists_node hlt
  exact Pool.lt_size (h handle node hnode)

/-! ## Reading back -/

theorem toExpr_congr {f g : Handle → Expr} {node : Node} (h : ∀ c ∈ node.children, f c = g c) :
    node.toExpr f = node.toExpr g := by
  cases node <;> simp_all [Node.toExpr, Node.children]

/-- More levels than the handle needs change nothing. -/
theorem exprWithin_eq {pool : Pool} (hpool : pool.WellFormed) {handle : Handle} {depth : Nat}
    (h : handle < depth) : pool.exprWithin depth handle = pool.expr handle := by
  suffices hall : ∀ n depth handle : Nat, handle < n → handle < depth →
      pool.exprWithin depth handle = pool.expr handle by
    exact hall _ _ _ (Nat.lt_succ_self _) h
  intro n
  induction n with
  | zero => intro depth handle h; omega
  | succ n ih =>
    intro depth handle hn hd
    obtain ⟨depth, rfl⟩ : ∃ d, depth = d + 1 := ⟨depth - 1, by omega⟩
    unfold expr exprWithin
    cases hnode : pool.nodes[handle]? with
    | none => rfl
    | some node =>
      refine toExpr_congr fun c hc => ?_
      have hlt := hpool.child_lt handle node hnode c hc
      have hcn : c < n := Nat.lt_of_lt_of_le hlt (Nat.le_of_lt_succ hn)
      have hcd : c < depth := Nat.lt_of_lt_of_le hlt (Nat.le_of_lt_succ hd)
      rw [ih depth c hcn hcd, ih handle c hcn hlt]

/-- A handle stands for the head of its node over what the children stand for. -/
theorem expr_eq {pool : Pool} (hpool : pool.WellFormed) {handle : Handle} {node : Node}
    (h : pool.nodes[handle]? = some node) : pool.expr handle = node.toExpr pool.expr := by
  conv_lhs => unfold expr exprWithin
  rw [h]
  exact toExpr_congr fun c hc => exprWithin_eq hpool (hpool.child_lt handle node h c hc)

/-- A handle stands for the same expression in every extension. -/
theorem Extends.expr_eq {pool later : Pool} (h : pool.Extends later) (hpool : pool.WellFormed)
    (hlater : later.WellFormed) {handle : Handle} (hlt : handle < pool.size) :
    later.expr handle = pool.expr handle := by
  induction handle using Nat.strongRecOn with
  | ind handle ih =>
    obtain ⟨node, hnode⟩ := exists_node hlt
    rw [Pool.expr_eq hpool hnode, Pool.expr_eq hlater (h handle node hnode)]
    refine toExpr_congr fun c hc => ?_
    have hc' : c < handle := hpool.child_lt handle node hnode c hc
    exact ih c hc' (Nat.lt_trans hc' hlt)

theorem map_injOn {f : Handle → Expr} {xs ys : List Handle}
    (hf : ∀ x ∈ xs, ∀ y ∈ ys, f x = f y → x = y) (h : xs.map f = ys.map f) : xs = ys := by
  induction xs generalizing ys with
  | nil => simpa using h.symm
  | cons x xs ih =>
    cases ys with
    | nil => simp at h
    | cons y ys =>
      simp only [List.map_cons, List.cons.injEq] at h
      rw [hf x (by simp) y (by simp) h.1,
        ih (fun a ha b hb => hf a (by simp [ha]) b (by simp [hb])) h.2]

/-- Nodes that stand for the same expression are equal if their children are told apart. -/
theorem toExpr_injective {f : Handle → Expr} {node other : Node}
    (hf : ∀ x ∈ node.children, ∀ y ∈ other.children, f x = f y → x = y)
    (h : node.toExpr f = other.toExpr f) : node = other := by
  cases node <;> cases other <;> simp only [Node.toExpr, reduceCtorEq, Expr.constant.injEq,
    Expr.symbol.injEq, Expr.add.injEq, Expr.mul.injEq, Expr.pow.injEq, Expr.function.injEq] at h
  case constant => rw [h]
  case symbol => rw [h]
  case add => exact congrArg Node.add (map_injOn hf h)
  case mul => exact congrArg Node.mul (map_injOn hf h)
  case pow =>
    rw [hf _ (by simp [Node.children]) _ (by simp [Node.children]) h.1,
      hf _ (by simp [Node.children]) _ (by simp [Node.children]) h.2]
  case function => exact congrArg₂ Node.function h.1 (map_injOn hf h.2)

/-- Handles of a well-formed pool that stand for the same expression are equal. -/
theorem expr_injective {pool : Pool} (hpool : pool.WellFormed) {a b : Handle}
    (ha : a < pool.size) (hb : b < pool.size) (h : pool.expr a = pool.expr b) : a = b := by
  induction a using Nat.strongRecOn generalizing b with
  | ind a ih =>
    obtain ⟨node, hnode⟩ := exists_node ha
    obtain ⟨other, hother⟩ := exists_node hb
    rw [expr_eq hpool hnode, expr_eq hpool hother] at h
    have heq : node = other := by
      refine toExpr_injective (fun x hx y hy hxy => ?_) h
      have hxa : x < a := hpool.child_lt a node hnode x hx
      have hyb : y < b := hpool.child_lt b other hother y hy
      exact ih x hxa (Nat.lt_trans hxa ha) (Nat.lt_trans hyb hb) hxy
    have h1 := (hpool.index_iff node a).mpr hnode
    have h2 := (hpool.index_iff other b).mpr hother
    rw [heq, h2] at h1
    exact (Option.some.inj h1).symm

/-! ## Storing one node -/

/-- The handles are those of nodes of the pool. -/
def Has (pool : Pool) (handles : List Handle) : Prop :=
  ∀ h ∈ handles, h < pool.size

theorem Has.mono {pool later : Pool} {handles : List Handle} (h : pool.Has handles)
    (hext : pool.Extends later) : later.Has handles :=
  fun c hc => hext.lt_size (h c hc)

theorem intern_of_find {pool : Pool} {node : Node} {handle : Handle}
    (h : pool.index[node]? = some handle) : (intern node).run pool = (handle, pool) := by
  simp [intern, StateT.run, h]

theorem intern_of_not_find {pool : Pool} {node : Node} (h : pool.index[node]? = none) :
    (intern node).run pool = (pool.nodes.size,
      ⟨pool.nodes.push node, pool.index.insert node pool.nodes.size⟩) := by
  simp [intern, StateT.run, h]

/-- A node is stored behind the ones that are there. -/
theorem extends_intern (pool : Pool) (node : Node) : pool.Extends ((intern node).run pool).2 := by
  cases hfind : pool.index[node]? with
  | some handle =>
    rw [intern_of_find hfind]
    exact Extends.refl pool
  | none =>
    rw [intern_of_not_find hfind]
    intro handle other h
    have hne : handle ≠ pool.nodes.size := Nat.ne_of_lt (Pool.lt_size h)
    rw [Array.getElem?_push, if_neg hne, h]

/-- Storing a node over handles of the pool keeps the pool well-formed. -/
theorem WellFormed.intern {pool : Pool} (hpool : pool.WellFormed) {node : Node}
    (hchildren : pool.Has node.children) : ((intern node).run pool).2.WellFormed := by
  cases hfind : pool.index[node]? with
  | some handle =>
    rw [intern_of_find hfind]
    exact hpool
  | none =>
    rw [intern_of_not_find hfind]
    have hnew : ∀ handle : Handle, pool.nodes[handle]? ≠ some node := by
      intro handle h
      rw [(hpool.index_iff node handle).mpr h] at hfind
      cases hfind
    refine ⟨?_, ?_⟩
    · intro other handle
      simp only [Std.HashMap.getElem?_insert, Array.getElem?_push]
      by_cases heq : node = other
      · subst heq
        simp only [beq_self_eq_true, if_true]
        constructor
        · rintro ⟨⟩
          simp
        · intro h
          split at h
          · next hsize => rw [hsize]
          · exact absurd h (hnew handle)
      · simp only [beq_iff_eq, heq, if_false, hpool.index_iff]
        split
        · next hsize => simp [hsize, heq]
        · rfl
    · intro handle other h c hc
      simp only [Array.getElem?_push] at h
      split at h
      · next hsize =>
        cases h
        rw [hsize]
        exact hchildren c hc
      · exact hpool.child_lt handle other h c hc

/-- The handle of a node is where it stands. -/
theorem nodes_intern {pool : Pool} (hpool : pool.WellFormed) (node : Node) :
    ((intern node).run pool).2.nodes[((intern node).run pool).1]? = some node := by
  cases hfind : pool.index[node]? with
  | some handle =>
    rw [intern_of_find hfind]
    exact (hpool.index_iff node handle).mp hfind
  | none =>
    rw [intern_of_not_find hfind]
    simp

/-! ## Growing -/

/-- The later pool comes from storing nodes one after another, each over handles that the pool has by
then. -/
inductive Grows (pool : Pool) : Pool → Prop
  | refl : Grows pool pool
  | intern {later : Pool} (node : Node) : Grows pool later → later.Has node.children →
      Grows pool ((intern node).run later).2

namespace Grows

variable {a b c : Pool}

theorem trans (hab : a.Grows b) (hbc : b.Grows c) : a.Grows c := by
  induction hbc with
  | refl => exact hab
  | intern node _ hchildren ih => exact ih.intern node hchildren

theorem toExtends (h : a.Grows b) : a.Extends b := by
  induction h with
  | refl => exact Extends.refl a
  | intern node _ _ ih => exact ih.trans (extends_intern _ node)

theorem wellFormed (h : a.Grows b) (ha : a.WellFormed) : b.WellFormed := by
  induction h with
  | refl => exact ha
  | intern node _ hchildren ih => exact ih.intern hchildren

end Grows

/-! ## Storing -/

/-- From a well-formed pool the action goes to a well-formed one by storing nodes, with a result that
`post` accepts there. -/
def Stores {α : Type} (pool : Pool) (action : StateM Pool α) (post : α → Pool → Prop) : Prop :=
  (action.run pool).2.WellFormed ∧ pool.Grows (action.run pool).2 ∧
    post (action.run pool).1 (action.run pool).2

theorem Stores.pure {α : Type} {pool : Pool} (hpool : pool.WellFormed) {value : α}
    {post : α → Pool → Prop} (h : post value pool) : Stores pool (Pure.pure value) post :=
  ⟨hpool, .refl, h⟩

theorem Stores.bind {α β : Type} {pool : Pool} {action : StateM Pool α}
    {next : α → StateM Pool β} {mid : α → Pool → Prop} {post : β → Pool → Prop}
    (h : Stores pool action mid)
    (hnext : ∀ value later, later.WellFormed → pool.Extends later → mid value later →
      Stores later (next value) post) : Stores pool (action >>= next) post := by
  obtain ⟨hwf, hgrows, hmid⟩ := h
  obtain ⟨hwf', hgrows', hpost⟩ := hnext _ _ hwf hgrows.toExtends hmid
  exact ⟨hwf', hgrows.trans hgrows', hpost⟩

theorem Stores.mono {α : Type} {pool : Pool} {action : StateM Pool α}
    {post post' : α → Pool → Prop} (h : Stores pool action post)
    (hpost : ∀ value later, post value later → post' value later) : Stores pool action post' :=
  ⟨h.1, h.2.1, hpost _ _ h.2.2⟩

/-- Storing a node over handles of the pool gives the handle where it stands. -/
theorem intern_spec {pool : Pool} (hpool : pool.WellFormed) (node : Node)
    (hchildren : pool.Has node.children) :
    Stores pool (intern node) fun handle later => later.nodes[handle]? = some node :=
  ⟨hpool.intern hchildren, Grows.refl.intern node hchildren, nodes_intern hpool node⟩

/-- Storing a node gives a handle that stands for its head over its children. -/
theorem intern_expr {pool : Pool} (hpool : pool.WellFormed) (node : Node)
    (hchildren : pool.Has node.children) :
    Stores pool (intern node) fun handle later =>
      handle < later.size ∧ later.expr handle = node.toExpr pool.expr := by
  have h := intern_spec hpool node hchildren
  refine ⟨h.1, h.2.1, Pool.lt_size h.2.2, ?_⟩
  rw [expr_eq h.1 h.2.2]
  exact toExpr_congr fun c hc => h.2.1.toExtends.expr_eq hpool h.1 (hchildren c hc)

theorem empty_wellFormed : empty.WellFormed where
  index_iff := by simp [empty]
  child_lt := by simp [empty]

theorem initial_wellFormed : initial.WellFormed := by
  have h := intern_spec empty_wellFormed (.constant 0) (by simp [Has, Node.children])
  exact (intern_spec h.1 (.constant 1) (by simp [Has, Node.children])).1

/-- The handle stands for the expression. -/
def StandsFor (e : Expr) (handle : Handle) (pool : Pool) : Prop :=
  handle < pool.size ∧ pool.expr handle = e

theorem StandsFor.mono {e : Expr} {handle : Handle} {pool later : Pool}
    (h : StandsFor e handle pool) (hpool : pool.WellFormed) (hlater : later.WellFormed)
    (hext : pool.Extends later) : StandsFor e handle later :=
  ⟨hext.lt_size h.1, (hext.expr_eq hpool hlater h.1).trans h.2⟩

/-- The handles stand for the expressions, one by one. -/
def StandFor (es : List Expr) (handles : List Handle) (pool : Pool) : Prop :=
  pool.Has handles ∧ handles.map pool.expr = es

/-- Storing the expressions one after another gives handles that stand for them. -/
theorem shareList_spec {es : List Expr}
    (h : ∀ e ∈ es, ∀ pool : Pool, pool.WellFormed → Stores pool (share e) (StandsFor e))
    {pool : Pool} (hpool : pool.WellFormed) : Stores pool (shareList es) (StandFor es) := by
  induction es generalizing pool with
  | nil => exact Stores.pure hpool ⟨by simp [Has], rfl⟩
  | cons e es ih =>
    refine (h e (by simp) pool hpool).bind fun handle later hlater hext hhandle => ?_
    refine (ih (fun x hx => h x (by simp [hx])) hlater).bind
      fun handles last hlast hext' hhandles => Stores.pure hlast ?_
    have hhandle' := hhandle.mono hlater hlast hext'
    refine ⟨?_, by simp [hhandle'.2, hhandles.2]⟩
    intro c hc
    rcases List.mem_cons.mp hc with rfl | hc
    · exact hhandle'.1
    · exact hhandles.1 c hc

/-- Storing an expression gives a handle that stands for it. -/
theorem share_spec (e : Expr) : ∀ {pool : Pool}, pool.WellFormed →
    Stores pool (share e) (StandsFor e) := by
  induction e using Expr.induction with
  | node e ih =>
    intro pool hpool
    cases e with
    | constant value => exact intern_expr hpool (.constant value) (by simp [Has, Node.children])
    | symbol name => exact intern_expr hpool (.symbol name) (by simp [Has, Node.children])
    | add terms =>
      refine (shareList_spec (fun e he pool => ih e he) hpool).bind
        fun handles later hlater _ h => (intern_expr hlater (.add handles) h.1).mono
          fun handle last hh => ⟨hh.1, ?_⟩
      rw [hh.2, Node.toExpr, h.2, Expr.children]
    | mul factors =>
      refine (shareList_spec (fun e he pool => ih e he) hpool).bind
        fun handles later hlater _ h => (intern_expr hlater (.mul handles) h.1).mono
          fun handle last hh => ⟨hh.1, ?_⟩
      rw [hh.2, Node.toExpr, h.2, Expr.children]
    | pow base exponent =>
      refine (ih base (by simp [Expr.children]) hpool).bind fun b later hlater _ hb => ?_
      refine (ih exponent (by simp [Expr.children]) hlater).bind
        fun x last hlast hext hx => ?_
      have hb' := hb.mono hlater hlast hext
      refine (intern_expr hlast (.pow b x) ?_).mono fun handle _ hh => ⟨hh.1, ?_⟩
      · intro c hc
        simp only [Node.children, List.mem_cons, List.not_mem_nil, or_false] at hc
        rcases hc with rfl | rfl
        · exact hb'.1
        · exact hx.1
      · rw [hh.2, Node.toExpr, hb'.2, hx.2]
    | function head arguments =>
      refine (shareList_spec (fun e he pool => ih e he) hpool).bind
        fun handles later hlater _ h =>
          (intern_expr hlater (.function head handles) h.1).mono fun handle last hh => ⟨hh.1, ?_⟩
      rw [hh.2, Node.toExpr, h.2, Expr.children]

end Pool

end ClosedForm
